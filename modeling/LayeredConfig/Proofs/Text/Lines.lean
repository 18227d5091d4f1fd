import Mathlib.Data.List.Basic
import LayeredConfig.Text.Blank
import LayeredConfig.Text.Lines

namespace LayeredConfig.Text

variable {p : Char → Bool} {c : Char} {cs ds l b : List Char} {ls ls' : List (List Char)} {k : Nat}

/-- What a text is read as from a file that holds it. -/
def saved (s : String) : String := String.ofList (unifyNewlines s.toList)

@[simp]
theorem toList_saved (s : String) : (saved s).toList = unifyNewlines s.toList := by
  simp [saved]

theorem dropEndWhile_append_of_pos (hb : ∀ c ∈ b, p c) : dropEndWhile p (l ++ b) = dropEndWhile p l := by
  rw [dropEndWhile, dropEndWhile, List.reverse_append, List.dropWhile_append_of_pos]
  exact fun c hc => hb c (List.mem_reverse.1 hc)

theorem trimChars_append_of_blank (hb : ∀ c ∈ b, isBlank c) : trimChars (l ++ b) = trimChars l := by
  rw [← trimChars_dropEndWhile, dropEndWhile_append_of_pos hb, trimChars_dropEndWhile]

theorem trim_ofList_append_of_blank (hb : ∀ c ∈ b, isBlank c) :
    trim (String.ofList (l ++ b)) = trim (String.ofList l) := by
  rw [trim, trim, String.toList_ofList, String.toList_ofList, trimChars_append_of_blank hb]

theorem trimChars_of_blank (hl : ∀ c ∈ l, isBlank c) : trimChars l = [] := by
  have h := trimChars_append_of_blank (l := []) hl
  rwa [List.nil_append] at h

theorem trimChars_cons_of_blank (hc : isBlank c) : trimChars (c :: l) = trimChars l := by
  rw [trimChars, List.dropWhile_cons_of_pos hc, trimChars]

theorem head?_trimChars_cons (hc : ¬isBlank c) : (trimChars (c :: l)).head? = some c := by
  rw [trimChars, List.dropWhile_cons_of_neg hc, dropEndWhile_cons, if_neg fun h => hc h.2, List.head?_cons]

theorem not_isBlank_of_trimChars (h : trimChars (c :: l) = c :: l) : ¬isBlank c := by
  intro hc
  have hlength : (trimChars l).length ≤ l.length :=
    calc (trimChars l).length = ((l.dropWhile isBlank).reverse.dropWhile isBlank).length := List.length_reverse
      _ ≤ (l.dropWhile isBlank).reverse.length := (List.dropWhile_sublist _).length_le
      _ = (l.dropWhile isBlank).length := List.length_reverse
      _ ≤ l.length := (List.dropWhile_sublist _).length_le
  rw [trimChars_cons_of_blank hc] at h
  rw [h, List.length_cons] at hlength
  omega

theorem dropWhile_eq_self (h : ∀ c, l.head? = some c → ¬p c) : l.dropWhile p = l := by
  cases l with
  | nil => rfl
  | cons c l => exact List.dropWhile_cons_of_neg (h c rfl)

theorem trimChars_eq_self (hhead : ∀ c, l.head? = some c → ¬isBlank c)
    (hlast : ∀ c, l.getLast? = some c → ¬isBlank c) : trimChars l = l := by
  rw [trimChars, dropWhile_eq_self hhead, dropEndWhile, dropWhile_eq_self, List.reverse_reverse]
  rwa [List.head?_reverse]

theorem unifyNewlines_cons (h : c = '\r' → cs.head? ≠ some '\n') :
    unifyNewlines (c :: cs) = (if c = '\r' then '\n' else c) :: unifyNewlines cs := by
  rw [unifyNewlines]
  rintro ds rfl rfl
  exact h rfl rfl

theorem unifyNewlines_append (h : cs.getLast? = some '\r' → ds.head? ≠ some '\n') :
    unifyNewlines (cs ++ ds) = unifyNewlines cs ++ unifyNewlines ds := by
  fun_induction unifyNewlines cs with
  | case1 => rfl
  | case2 cs ih =>
      have hcs : cs.getLast? = some '\r' → ds.head? ≠ some '\n' := fun hlast =>
        h (by simp [List.getLast?_cons, hlast])
      rw [List.cons_append, List.cons_append, unifyNewlines, ih hcs, List.cons_append]
  | case3 c cs hpair ih =>
      have hcs : cs.getLast? = some '\r' → ds.head? ≠ some '\n' := fun hlast =>
        h (by simp [List.getLast?_cons, hlast])
      have hnext : c = '\r' → (cs ++ ds).head? ≠ some '\n' := by
        rintro rfl hhead
        cases cs with
        | nil => exact h rfl hhead
        | cons d cs =>
            cases hhead
            exact hpair cs rfl rfl
      rw [List.cons_append, unifyNewlines_cons hnext, ih hcs, List.cons_append]

theorem splitOn_newline_cons (cs : List Char) : ('\n' :: cs).splitOn '\n' = [] :: cs.splitOn '\n' := by
  rw [List.splitOn, List.splitOnP_cons_eq_if_modifyHead, if_pos (by simp), List.splitOn]

theorem splitOn_cons_of_ne (hc : c ≠ '\n') :
    (c :: cs).splitOn '\n' = (cs.splitOn '\n').modifyHead (c :: ·) := by
  rw [List.splitOn, List.splitOnP_cons_eq_if_modifyHead, if_neg (by simpa using hc), List.splitOn]

theorem exists_splitOn_eq (cs : List Char) : ∃ rest, cs.splitOn '\n' = cs.takeWhile (· ≠ '\n') :: rest ∧
    ∀ l ∈ rest, ∀ c ∈ l, c ∈ cs := by
  induction cs with
  | nil => exact ⟨[], rfl, by simp⟩
  | cons c cs ih =>
      obtain ⟨rest, hsplit, hrest⟩ := ih
      by_cases hc : c = '\n'
      · subst hc
        refine ⟨_, by rw [splitOn_newline_cons, List.takeWhile_cons_of_neg (by simp)], ?_⟩
        rw [hsplit]
        intro l hl d hd
        rcases List.mem_cons.1 hl with rfl | hl
        · exact List.mem_cons_of_mem _ ((List.takeWhile_sublist _).subset hd)
        · exact List.mem_cons_of_mem _ (hrest l hl d hd)
      · refine ⟨rest, ?_, fun l hl d hd => List.mem_cons_of_mem _ (hrest l hl d hd)⟩
        rw [splitOn_cons_of_ne hc, hsplit, List.modifyHead_cons, List.takeWhile_cons_of_pos (by simpa using hc)]

theorem mem_of_mem_splitOn (hl : l ∈ cs.splitOn '\n') (hc : c ∈ l) : c ∈ cs := by
  obtain ⟨rest, hsplit, hrest⟩ := exists_splitOn_eq cs
  rw [hsplit] at hl
  rcases List.mem_cons.1 hl with rfl | hl
  · exact (List.takeWhile_sublist _).subset hc
  · exact hrest l hl c hc

theorem blank_of_mem_unifyNewlines (hcs : ∀ c ∈ cs, isBlank c) : ∀ c ∈ unifyNewlines cs, isBlank c := by
  fun_induction unifyNewlines cs with
  | case1 => simp
  | case2 cs ih => simp_all
  | case3 c cs _ ih =>
      intro d hd
      rcases List.mem_cons.1 hd with rfl | hd
      · split
        · decide
        · exact hcs c List.mem_cons_self
      · exact ih (fun c hc => hcs c (List.mem_cons_of_mem _ hc)) d hd

/-- What stands behind each carriage return, unless a line feed comes first. -/
def BehindReturns (q : List Char → Prop) (cs : List Char) : Prop :=
  ∀ before after, cs = before ++ '\r' :: after → after.head? ≠ some '\n' → q after

theorem behindReturns_nil (q : List Char → Prop) : BehindReturns q [] := by
  intro before after he
  cases before <;> cases he

theorem behindReturns_cons {q : List Char → Prop} : BehindReturns q (c :: cs) ↔
    (c = '\r' → cs.head? ≠ some '\n' → q cs) ∧ BehindReturns q cs := by
  constructor
  · intro h
    refine ⟨?_, fun before after he => h (c :: before) after (congrArg (c :: ·) he)⟩
    rintro rfl
    exact h [] cs rfl
  · rintro ⟨hfirst, h⟩ before after he hn
    cases before with
    | nil =>
        obtain ⟨rfl, rfl⟩ := List.cons.inj he
        exact hfirst rfl hn
    | cons d before => exact h before after (List.cons.inj he).2 hn

instance decidableBehindReturns (q : List Char → Prop) [DecidablePred q] : DecidablePred (BehindReturns q)
  | [] => .isTrue (behindReturns_nil q)
  | _ :: cs =>
      have := decidableBehindReturns q cs
      decidable_of_iff _ behindReturns_cons.symm

theorem BehindReturns.imp {q q' : List Char → Prop} (h : BehindReturns q cs)
    (himp : ∀ after, q after → q' after) : BehindReturns q' cs :=
  fun before after he hn => himp after (h before after he hn)

theorem BehindReturns.of_append {q : List Char → Prop} (ds : List Char) (h : BehindReturns q (ds ++ cs)) :
    BehindReturns q cs := by
  rintro before after rfl
  exact h (ds ++ before) after (List.append_assoc ..).symm

/-- The same lines but for characters `p` at their ends, until on both sides only blank lines are left. -/
inductive SameLines (p : Char → Bool) : List (List Char) → List (List Char) → Prop
  | last {l b : List Char} {rest rest' : List (List Char)} (hb : ∀ c ∈ b, p c)
      (hrest : ∀ l ∈ rest, ∀ c ∈ l, isBlank c) (hrest' : ∀ l ∈ rest', ∀ c ∈ l, isBlank c) :
      SameLines p ((l ++ b) :: rest) (l :: rest')
  | cons {l b : List Char} {ls ls' : List (List Char)} (hb : ∀ c ∈ b, p c) (h : SameLines p ls ls') :
      SameLines p ((l ++ b) :: ls) (l :: ls')

theorem SameLines.modifyHead (h : SameLines p ls ls') (c : Char) :
    SameLines p (ls.modifyHead (c :: ·)) (ls'.modifyHead (c :: ·)) := by
  cases h with
  | @last l b rest rest' hb hrest hrest' => exact .last (l := c :: l) hb hrest hrest'
  | @cons l b ls ls' hb h => exact .cons (l := c :: l) hb h

theorem sameLines_unifyNewlines (hp : p '\r') (h : BehindReturns (fun after =>
      (∀ c ∈ after, isBlank c) ∧ ∀ c ∈ after.takeWhile (· ≠ '\n'), p c) cs) :
    SameLines p (cs.splitOn '\n') ((unifyNewlines cs).splitOn '\n') := by
  fun_induction unifyNewlines cs with
  | case1 => exact .last (l := []) (b := []) (by simp) (by simp) (by simp)
  | case2 cs ih =>
      rw [splitOn_cons_of_ne (by decide), splitOn_newline_cons, splitOn_newline_cons]
      exact .cons (l := []) (b := ['\r']) (by simpa using hp) (ih (h.of_append ['\r', '\n']))
  | case3 c cs hpair ih =>
      have ih := ih (h.of_append [c])
      by_cases hr : c = '\r'
      · subst hr
        obtain ⟨hblank, hfirst⟩ := h [] cs rfl fun hn => by
          obtain ⟨ds, rfl⟩ := List.head?_eq_some_iff.1 hn
          exact hpair ds rfl rfl
        obtain ⟨rest, hsplit, hrest⟩ := exists_splitOn_eq cs
        rw [if_pos rfl, splitOn_cons_of_ne (by decide), splitOn_newline_cons, hsplit, List.modifyHead_cons]
        refine .last (l := []) ?_ (fun l hl c hc => hblank c (hrest l hl c hc)) fun l hl c hc => ?_
        · simpa using ⟨hp, by simpa using hfirst⟩
        · exact blank_of_mem_unifyNewlines hblank c (mem_of_mem_splitOn hl hc)
      · rw [if_neg hr]
        by_cases hn : c = '\n'
        · subst hn
          rw [splitOn_newline_cons, splitOn_newline_cons]
          exact .cons (l := []) (b := []) (by simp) ih
        · rw [splitOn_cons_of_ne hn, splitOn_cons_of_ne hn]
          exact ih.modifyHead c

theorem SameLines.flatMap {β : Type} {f : List Char → Nat → List β}
    (hblank : ∀ l n, (∀ c ∈ l, isBlank c) → f l n = [])
    (hend : ∀ l b n, (∀ c ∈ b, p c) → f (l ++ b) n = f l n) (h : SameLines p ls ls') (k : Nat) :
    (ls.zipIdx k).flatMap (fun line => f line.1 line.2) =
      (ls'.zipIdx k).flatMap fun line => f line.1 line.2 := by
  have hnone : ∀ rest : List (List Char), (∀ l ∈ rest, ∀ c ∈ l, isBlank c) → ∀ k,
      (rest.zipIdx k).flatMap (fun line => f line.1 line.2) = [] := by
    intro rest hrest k
    rw [List.flatMap_eq_nil_iff]
    intro line hline
    exact hblank _ _ (hrest line.1 (List.fst_mem_of_mem_zipIdx hline))
  induction h generalizing k with
  | last hb hrest hrest' =>
      rw [List.zipIdx_cons, List.zipIdx_cons, List.flatMap_cons, List.flatMap_cons, hend _ _ _ hb,
        hnone _ hrest, hnone _ hrest']
  | cons hb _ ih =>
      rw [List.zipIdx_cons, List.zipIdx_cons, List.flatMap_cons, List.flatMap_cons, hend _ _ _ hb, ih]

/-- Line `k`, from zero on, starts with a character that `φ` holds of, blanks apart. -/
def StartsAt (φ : Char → Prop) (ls : List (List Char)) (k : Nat) : Prop :=
  ∃ l c, ls[k]? = some l ∧ (trimChars l).head? = some c ∧ φ c

section StartsAt

variable {φ : Char → Prop}

theorem startsAt_cons_zero : StartsAt φ (l :: ls) 0 ↔ ∃ c, (trimChars l).head? = some c ∧ φ c := by
  simp [StartsAt]

theorem startsAt_cons_succ : StartsAt φ (l :: ls) (k + 1) ↔ StartsAt φ ls k := by
  simp [StartsAt]

theorem not_startsAt_nil_zero : ¬StartsAt φ ([] :: ls) 0 := by
  rw [startsAt_cons_zero]
  rintro ⟨c, hc, _⟩
  cases hc

theorem startsAt_zero_of_not_blank (hc : ¬isBlank c) : StartsAt φ ((c :: l) :: ls) 0 ↔ φ c := by
  simp [startsAt_cons_zero, head?_trimChars_cons hc]

theorem StartsAt.lt_length (h : StartsAt φ ls k) : k < ls.length := by
  obtain ⟨l, _, hl, _⟩ := h
  exact (List.getElem?_eq_some_iff.1 hl).1

theorem startsAt_modifyHead_of_blank (hc : isBlank c) :
    StartsAt φ (ls.modifyHead (c :: ·)) k ↔ StartsAt φ ls k := by
  cases ls with
  | nil => rfl
  | cons l ls =>
      rw [List.modifyHead_cons]
      cases k with
      | zero => rw [startsAt_cons_zero, startsAt_cons_zero, trimChars_cons_of_blank hc]
      | succ k => rw [startsAt_cons_succ, startsAt_cons_succ]

theorem startsAt_modifyHead_succ : StartsAt φ (ls.modifyHead (c :: ·)) (k + 1) ↔ StartsAt φ ls (k + 1) := by
  cases ls with
  | nil => rfl
  | cons l ls => rw [List.modifyHead_cons, startsAt_cons_succ, startsAt_cons_succ]

theorem exists_startsAt (hc : c ∈ cs) (hblank : ¬isBlank c) :
    ∃ k, StartsAt (fun _ => True) (cs.splitOn '\n') k := by
  induction cs with
  | nil => cases hc
  | cons d cs ih =>
      by_cases hn : d = '\n'
      · subst hn
        have hc : c ∈ cs := List.mem_of_ne_of_mem (by rintro rfl; exact hblank (by decide)) hc
        obtain ⟨k, hk⟩ := ih hc
        rw [splitOn_newline_cons]
        exact ⟨k + 1, startsAt_cons_succ.2 hk⟩
      rw [splitOn_cons_of_ne hn]
      by_cases hb : isBlank d
      · have hc : c ∈ cs := List.mem_of_ne_of_mem (by rintro rfl; exact hblank hb) hc
        obtain ⟨k, hk⟩ := ih hc
        exact ⟨k, (startsAt_modifyHead_of_blank hb).2 hk⟩
      · obtain ⟨rest, hsplit, _⟩ := exists_splitOn_eq cs
        rw [hsplit, List.modifyHead_cons]
        exact ⟨0, (startsAt_zero_of_not_blank hb).2 trivial⟩

theorem StartsAt.exists_unifyNewlines (h : StartsAt φ (cs.splitOn '\n') k) :
    ∃ m ≥ k, StartsAt φ ((unifyNewlines cs).splitOn '\n') m := by
  fun_induction unifyNewlines cs generalizing k with
  | case1 => exact ⟨k, Nat.le_refl k, h⟩
  | case2 cs ih =>
      rw [splitOn_cons_of_ne (by decide), startsAt_modifyHead_of_blank (by decide),
        splitOn_newline_cons] at h
      rw [splitOn_newline_cons]
      cases k with
      | zero => exact absurd h not_startsAt_nil_zero
      | succ k =>
          obtain ⟨m, hm, hc⟩ := ih (startsAt_cons_succ.1 h)
          exact ⟨m + 1, by omega, startsAt_cons_succ.2 hc⟩
  | case3 c cs hpair ih =>
      by_cases hr : c = '\r'
      · subst hr
        rw [splitOn_cons_of_ne (by decide), startsAt_modifyHead_of_blank (by decide)] at h
        obtain ⟨m, hm, hc⟩ := ih h
        rw [if_pos rfl, splitOn_newline_cons]
        exact ⟨m + 1, by omega, startsAt_cons_succ.2 hc⟩
      rw [if_neg hr]
      by_cases hn : c = '\n'
      · subst hn
        rw [splitOn_newline_cons] at h ⊢
        cases k with
        | zero => exact absurd h not_startsAt_nil_zero
        | succ k =>
            obtain ⟨m, hm, hc⟩ := ih (startsAt_cons_succ.1 h)
            exact ⟨m + 1, by omega, startsAt_cons_succ.2 hc⟩
      rw [splitOn_cons_of_ne hn] at h ⊢
      by_cases hb : isBlank c
      · rw [startsAt_modifyHead_of_blank hb] at h
        obtain ⟨m, hm, hc⟩ := ih h
        exact ⟨m, hm, (startsAt_modifyHead_of_blank hb).2 hc⟩
      · obtain ⟨rest, hsplit, _⟩ := exists_splitOn_eq cs
        obtain ⟨rest', hsplit', _⟩ := exists_splitOn_eq (unifyNewlines cs)
        cases k with
        | zero =>
            rw [hsplit, List.modifyHead_cons, startsAt_zero_of_not_blank hb] at h
            refine ⟨0, Nat.le_refl 0, ?_⟩
            rw [hsplit', List.modifyHead_cons]
            exact (startsAt_zero_of_not_blank hb).2 h
        | succ k =>
            obtain ⟨m, hm, hc⟩ := ih (startsAt_modifyHead_succ.1 h)
            obtain ⟨m, rfl⟩ : ∃ j, m = j + 1 := ⟨m - 1, by omega⟩
            exact ⟨m + 1, hm, startsAt_modifyHead_succ.2 hc⟩

theorem length_splitOn_pos (cs : List Char) : 0 < (cs.splitOn '\n').length := by
  obtain ⟨rest, hsplit, _⟩ := exists_splitOn_eq cs
  simp [hsplit]

theorem length_splitOn_le (cs : List Char) :
    (cs.splitOn '\n').length ≤ ((unifyNewlines cs).splitOn '\n').length := by
  fun_induction unifyNewlines cs with
  | case1 => exact Nat.le_refl _
  | case2 cs ih =>
      rw [splitOn_cons_of_ne (by decide), splitOn_newline_cons, splitOn_newline_cons]
      simpa using ih
  | case3 c cs hpair ih =>
      by_cases hr : c = '\r'
      · subst hr
        rw [if_pos rfl, splitOn_cons_of_ne (by decide), splitOn_newline_cons]
        simpa using Nat.le_succ_of_le ih
      rw [if_neg hr]
      by_cases hn : c = '\n'
      · subst hn
        rw [splitOn_newline_cons, splitOn_newline_cons]
        simpa using ih
      · rw [splitOn_cons_of_ne hn, splitOn_cons_of_ne hn]
        simpa using ih

theorem getElem?_splitOn_append (before after : List Char) (k : Nat) :
    ((before ++ after).splitOn '\n')[(before.splitOn '\n').length + k]? = (after.splitOn '\n')[k + 1]? := by
  induction before with
  | nil => simp [List.splitOn, Nat.add_comm]
  | cons c before ih =>
      have hpos := length_splitOn_pos before
      obtain ⟨n, hn⟩ : ∃ n, (before.splitOn '\n').length = n + 1 := ⟨_, (Nat.succ_pred_eq_of_pos hpos).symm⟩
      rw [List.cons_append]
      by_cases hc : c = '\n'
      · subst hc
        rw [splitOn_newline_cons, splitOn_newline_cons, List.length_cons, Nat.add_right_comm,
          List.getElem?_cons_succ, ih]
      · rw [splitOn_cons_of_ne hc, splitOn_cons_of_ne hc, List.length_modifyHead, ← ih, hn,
          Nat.add_right_comm, List.getElem?_modifyHead_succ]

theorem behindReturns_not_startsAt
    (h : ∀ k, StartsAt φ (cs.splitOn '\n') k ↔ StartsAt φ ((unifyNewlines cs).splitOn '\n') k) :
    BehindReturns (fun after => ∀ k, ¬StartsAt φ ((unifyNewlines after).splitOn '\n') k) cs := by
  rintro before after rfl hreturn
  have hsplit : (unifyNewlines (before ++ '\r' :: after)).splitOn '\n' =
      (unifyNewlines before).splitOn '\n' ++ (unifyNewlines after).splitOn '\n' := by
    rw [unifyNewlines_append (by simp), unifyNewlines_cons fun _ => hreturn, if_pos rfl, List.splitOn,
      List.splitOnP_append_cons _ _ (by simp)]
    rfl
  have hnext : ∀ k, StartsAt φ ((unifyNewlines after).splitOn '\n') k →
      ∃ m > k, StartsAt φ ((unifyNewlines after).splitOn '\n') m := by
    rintro k ⟨l, c, hl, hc⟩
    have hle := length_splitOn_le before
    obtain ⟨j, hj⟩ := Nat.exists_eq_add_of_le hle
    have hsaved : StartsAt φ ((unifyNewlines (before ++ '\r' :: after)).splitOn '\n')
        (((unifyNewlines before).splitOn '\n').length + k) := by
      refine ⟨l, c, ?_, hc⟩
      rw [hsplit, List.getElem?_append_right (Nat.le_add_right _ _), Nat.add_sub_cancel_left, hl]
    obtain ⟨l', c', hl', hc'⟩ := (h _).2 hsaved
    rw [hj, Nat.add_assoc, getElem?_splitOn_append] at hl'
    have hbelow : StartsAt φ (after.splitOn '\n') (j + k + 1) := by
      rw [← startsAt_modifyHead_of_blank (c := '\r') (by decide), ← splitOn_cons_of_ne (by decide)]
      exact ⟨l', c', hl', hc'⟩
    obtain ⟨m, hm, hcm⟩ := hbelow.exists_unifyNewlines
    exact ⟨m, by omega, hcm⟩
  intro k hk
  have hfar : ∀ n, ∃ m ≥ n, StartsAt φ ((unifyNewlines after).splitOn '\n') m := by
    intro n
    induction n with
    | zero => exact ⟨k, Nat.zero_le k, hk⟩
    | succ n ih =>
        obtain ⟨m, hm, hc⟩ := ih
        obtain ⟨m', hm', hc'⟩ := hnext m hc
        exact ⟨m', by omega, hc'⟩
  obtain ⟨m, hm, hc⟩ := hfar ((unifyNewlines after).splitOn '\n').length
  exact absurd hc.lt_length (Nat.not_lt.2 hm)

end StartsAt

end LayeredConfig.Text
