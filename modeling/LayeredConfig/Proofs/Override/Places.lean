import LayeredConfig.Proofs.Override

namespace LayeredConfig.Override

variable {root : Path} {before between after since ds : List Directive} {d e p : Directive} {i : Issue}
  {n m : Nat}

/-- Of the inclusions of the key of `d` before place `n`, the last is `p` at place `m`. -/
structure NearestAt (ds : List Directive) (n : Nat) (d : Directive) (m : Nat) (p : Directive) : Prop where
  lt : m < n
  get : ds[m]? = some p
  kind : p.kind = .inclusion
  key : p.key = d.key
  last : ∀ k e, m < k → k < n → ds[k]? = some e → e.key = d.key → e.kind ≠ .inclusion

/-- At a place from `m` on and before `n`, the file of `d` takes the key of `d` back. -/
def TakenBack (ds : List Directive) (m n : Nat) (d : Directive) : Prop :=
  ∃ k e, m ≤ k ∧ k < n ∧ ds[k]? = some e ∧ e.kind = .exclusion ∧ e.key = d.key ∧ e.file = d.file

/-- What is to be reported of place `n`: a new value for a key that its file has not taken back at all, or
the value over again for a key that its file has taken back since. -/
def Reported (root : Path) (ds : List Directive) (n : Nat) (i : Issue) : Prop :=
  ∃ d m p, ds[n]? = some d ∧ d.kind = .inclusion ∧ NearestAt ds n d m p ∧
    (¬TakenBack ds 0 n d ∧ i = .ofDirective d .redefinedWithoutExclusion
        ("Redefined without exclusion.\n" ++
          s!"Original value (on {root.location p.file p.line})={p.value}\n" ++
          s!"Redefined value (on {root.location d.file d.line})={d.value}.") ∨
      TakenBack ds (m + 1) n d ∧ p.value = d.value ∧ i = .ofDirective d .unnecessaryRedefinition
        ("Unnecessary redefinition. " ++
          s!"Value on {root.location d.file d.line} is the same as the excluded value."))

theorem exists_split_of_getElem? (hn : ds[n]? = some d) :
    ∃ before after, ds = before ++ d :: after ∧ before.length = n := by
  obtain ⟨hlt, rfl⟩ := List.getElem?_eq_some_iff.1 hn
  exact ⟨ds.take n, ds.drop (n + 1), by simp, by simp; omega⟩

theorem mem_between_iff (before between after : List Directive) : e ∈ between ↔
    ∃ k, before.length ≤ k ∧ k < (before ++ between).length ∧
      (before ++ between ++ after)[k]? = some e := by
  constructor
  · intro he
    obtain ⟨k, hk, rfl⟩ := List.getElem_of_mem he
    refine ⟨before.length + k, by omega, by simp; omega, ?_⟩
    rw [List.append_assoc, List.getElem?_append_right (by omega), Nat.add_sub_cancel_left,
      List.getElem?_append_left hk, List.getElem?_eq_getElem]
  · rintro ⟨k, hle, hlt, hk⟩
    rw [List.getElem?_append_left hlt, List.getElem?_append_right hle] at hk
    exact List.mem_of_getElem? hk

theorem takenBack_iff (before between after : List Directive) :
    TakenBack (before ++ between ++ after) before.length (before ++ between).length d ↔
      ∃ e ∈ between, e.key = d.key ∧ excludes d e := by
  simp only [TakenBack, mem_between_iff before between after, excludes, Bool.and_eq_true, decide_eq_true_eq]
  constructor
  · rintro ⟨k, e, hle, hlt, hk, hkind, hkey, hfile⟩
    exact ⟨e, ⟨k, hle, hlt, hk⟩, hkey, hkind, hfile⟩
  · rintro ⟨e, ⟨k, hle, hlt, hk⟩, hkey, hkind, hfile⟩
    exact ⟨k, e, hle, hlt, hk, hkind, hkey, hfile⟩

theorem nearestAt_iff : NearestAt (before ++ after) before.length d m p ↔
    ∃ since, Nearest before d p since ∧ m + 1 + since.length = before.length := by
  constructor
  · rintro ⟨hlt, hget, hkind, hkey, hlast⟩
    rw [List.getElem?_append_left hlt, List.getElem?_eq_some_iff] at hget
    obtain ⟨_, rfl⟩ := hget
    have hsplit : before = before.take m ++ before[m] :: before.drop (m + 1) := by simp
    refine ⟨before.drop (m + 1), ⟨⟨_, hsplit⟩, hkind, hkey, fun e he hek => ?_⟩, by simp; omega⟩
    obtain ⟨k, hk, rfl⟩ := List.getElem_of_mem he
    rw [List.length_drop] at hk
    refine hlast (m + 1 + k) _ (by omega) (by omega) ?_ hek
    rw [List.getElem?_append_left (by omega), List.getElem_drop, List.getElem?_eq_getElem]
  · rintro ⟨since, hn, hlength⟩
    obtain ⟨⟨b, rfl⟩, hkind, hkey, hsince⟩ := hn
    simp only [List.length_append, List.length_cons] at hlength ⊢
    obtain rfl : m = b.length := by omega
    refine ⟨by simp, by simp, hkind, hkey, fun k e hmk hk hget hek => hsince e ?_ hek⟩
    refine (mem_between_iff (b ++ [p]) since after).2 ⟨k, by simp; omega, by simp; omega, by simpa using hget⟩

theorem takenBack_zero_iff : TakenBack (before ++ after) 0 before.length d ↔
    ∃ e ∈ before, e.key = d.key ∧ excludes d e :=
  takenBack_iff [] before after

theorem Nearest.takenBack_iff (hp : Nearest before d p since) (hm : m + 1 + since.length = before.length) :
    TakenBack (before ++ after) (m + 1) before.length d ↔ ∃ e ∈ since, e.key = d.key ∧ excludes d e := by
  obtain ⟨b, rfl⟩ := hp.split
  obtain rfl : m = b.length := by simp at hm; omega
  rw [← Override.takenBack_iff (b ++ [p]) since after]
  simp

theorem reported_iff : Reported root ds n i ↔ ∃ before d after, ds = before ++ d :: after ∧
    before.length = n ∧ judge root (history before d) d = some i := by
  simp only [judge_history_iff]
  constructor
  · rintro ⟨d, m, p, hget, hd, hp, hi⟩
    obtain ⟨before, after, rfl, rfl⟩ := exists_split_of_getElem? hget
    obtain ⟨since, hp, hm⟩ := nearestAt_iff.1 hp
    rw [takenBack_zero_iff, hp.takenBack_iff hm] at hi
    refine ⟨before, d, after, rfl, rfl, hd, p, since, hp, ?_⟩
    rcases hi with ⟨hnone, rfl⟩ | ⟨hsome, hvalue, rfl⟩
    · exact .inl ⟨hnone, rfl⟩
    · exact .inr ⟨hvalue, hsome, rfl⟩
  · rintro ⟨before, d, after, rfl, rfl, hd, p, since, hp, hi⟩
    obtain ⟨m, hm⟩ : ∃ m, m + 1 + since.length = before.length := by
      obtain ⟨b, rfl⟩ := hp.split
      exact ⟨b.length, by simp; omega⟩
    refine ⟨d, m, p, by simp, hd, nearestAt_iff.2 ⟨since, hp, hm⟩, ?_⟩
    rw [takenBack_zero_iff, hp.takenBack_iff hm]
    rcases hi with ⟨hnone, rfl⟩ | ⟨hvalue, hsome, rfl⟩
    · exact .inl ⟨hnone, rfl⟩
    · exact .inr ⟨hsome, hvalue, rfl⟩

theorem issues_concat (root : Path) (ds : List Directive) (d : Directive) :
    issues root (ds ++ [d]) = issues root ds ++ (judge root (history ds d) d).toList := by
  rw [issues, issuesFrom_append, issuesFrom, issuesFrom, List.append_nil, List.append_nil, issues, history]

theorem exists_reports (root : Path) (ds : List Directive) : ∃ reports : List (Nat × Issue),
    issues root ds = reports.map Prod.snd ∧ (reports.map Prod.fst).Pairwise (· < ·) ∧
      ∀ n i, (n, i) ∈ reports ↔ ∃ before d after, ds = before ++ d :: after ∧ before.length = n ∧
        judge root (history before d) d = some i := by
  induction ds using List.reverseRecOn with
  | nil => exact ⟨[], rfl, .nil, by simp⟩
  | append_singleton ds d ih =>
      obtain ⟨reports, hissues, hplaces, hmem⟩ := ih
      refine ⟨reports ++ (judge root (history ds d) d).toList.map (ds.length, ·), ?_, ?_, fun n i => ?_⟩
      · simp [issues_concat, hissues, Function.comp_def]
      · have hlt : ∀ n ∈ reports.map Prod.fst, n < ds.length := by
          intro n hn
          obtain ⟨⟨n, i⟩, hi, rfl⟩ := List.mem_map.1 hn
          obtain ⟨before, e, after, rfl, rfl, _⟩ := (hmem n i).1 hi
          simp
        rw [List.map_append, List.pairwise_append]
        refine ⟨hplaces, ?_, fun n hn k hk => ?_⟩
        · cases judge root (history ds d) d <;> simp
        · obtain ⟨_, hreport, rfl⟩ := List.mem_map.1 hk
          obtain ⟨j, _, rfl⟩ := List.mem_map.1 hreport
          exact hlt n hn
      · rw [List.mem_append, hmem]
        constructor
        · rintro (⟨before, e, after, rfl, rfl, hj⟩ | hi)
          · exact ⟨before, e, after ++ [d], by simp, rfl, hj⟩
          · obtain ⟨j, hj, he⟩ := List.mem_map.1 hi
            obtain ⟨rfl, rfl⟩ := Prod.mk.inj he
            exact ⟨ds, d, [], rfl, rfl, Option.mem_toList.1 hj⟩
        · rintro ⟨before, e, after, hds, rfl, hj⟩
          rcases List.eq_nil_or_concat after with rfl | ⟨after, x, rfl⟩
          · obtain ⟨rfl, he⟩ := List.append_inj' hds rfl
            obtain rfl := List.singleton_inj.1 he
            exact .inr (List.mem_map.2 ⟨i, Option.mem_toList.2 hj, rfl⟩)
          · rw [List.concat_eq_append, ← List.cons_append, ← List.append_assoc] at hds
            obtain ⟨rfl, _⟩ := List.append_inj' hds rfl
            exact .inl ⟨before, e, after, rfl, rfl, hj⟩

theorem issuesFrom_filter_key (root : Path) (key : String) (earlier ds : List Directive) :
    (issuesFrom root earlier ds).filter (·.key = key) =
      issuesFrom root (earlier.filter (·.key = key)) (ds.filter (·.key = key)) := by
  induction ds generalizing earlier with
  | nil => rfl
  | cons d ds ih =>
      rw [issuesFrom, List.filter_append, ih]
      by_cases hd : d.key = key
      · subst hd
        have hearlier : (earlier.filter (·.key = d.key)).filter (·.key = d.key) =
            earlier.filter (·.key = d.key) := by simp
        rw [List.filter_cons_of_pos (by simp), List.filter_cons_of_pos (by simp), issuesFrom, hearlier,
          List.filter_eq_self.2]
        intro i hi
        exact decide_eq_true (judge_key (Option.mem_toList.1 hi))
      · rw [List.filter_cons_of_neg (by simpa using hd), List.filter_cons_of_neg (by simpa using hd),
          List.filter_eq_nil_iff.2, List.nil_append]
        intro i hi
        simpa [judge_key (Option.mem_toList.1 hi)] using hd

/-- The pass over a list reports just what the rule says, place after place, and for every key it looks at
nothing but that key. -/
theorem issues_by_place (root : Path) (ds : List Directive) :
    (∃ reports : List (Nat × Issue), issues root ds = reports.map Prod.snd ∧
      (reports.map Prod.fst).Pairwise (· < ·) ∧ ∀ n i, (n, i) ∈ reports ↔ Reported root ds n i) ∧
    ∀ key, (issues root ds).filter (·.key = key) = issues root (ds.filter (·.key = key)) := by
  obtain ⟨reports, hissues, hplaces, hmem⟩ := exists_reports root ds
  refine ⟨⟨reports, hissues, hplaces, fun n i => ?_⟩, fun key => issuesFrom_filter_key root key [] ds⟩
  rw [hmem, reported_iff]

end LayeredConfig.Override
