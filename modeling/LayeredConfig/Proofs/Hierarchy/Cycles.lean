import Mathlib.Data.List.Rotate
import LayeredConfig.Proofs.Hierarchy.Expansion

namespace LayeredConfig

theorem Import.open?_eq_cyclic_iff {s : Settings} {t : FileTree} {active chain : List Location}
    {name : String} :
    open? s t active name = .error (.problem (.cyclic chain)) ↔
      ∃ target, locate s t name = .ok (some target) ∧
      (∃ text, readDocument t target = .ok text) ∧ target ∈ active ∧
      chain = active.dropWhile (· ≠ target) ++ [target] := by
  unfold open?
  split
  · simp_all
  · simp_all
  · rename_i target hl
    split
    · simp_all
    · rename_i text hr
      by_cases hm : target ∈ active
      · simp [hm, hl, hr, eq_comm]
      · simp [hm, hl]

namespace ImportProblem

theorem kind_eq_cyclicImport_iff {p : ImportProblem} : p.kind = .cyclicImport ↔ ∃ chain, p = .cyclic chain := by
  cases p <;> simp [kind]

end ImportProblem

namespace Hierarchy

variable (h : Hierarchy)

/-- The files of `c`, each imported by the one before it, and the first of them, `v`, by the last. -/
structure IsCycle (v : Location) (c : List Location) : Prop where
  head : c.head? = some v
  chain : (c ++ [v]).IsChain h.Edge
  nodup : c.Nodup

variable {h}

theorem IsPath.isCycle {p q : List Location} {u v : Location} (hp : h.IsPath (p ++ q))
    (hv : q.head? = some v) (hu : q.getLast? = some u) (he : h.Edge u v) : h.IsCycle v q := by
  refine ⟨hv, hp.chain.right_of_append.append (.singleton v) ?_, (List.nodup_append.1 hp.nodup).2.1⟩
  intro x hx y hy
  obtain rfl : u = x := Option.some.inj (hu.symm.trans hx)
  obtain rfl : v = y := Option.some.inj hy
  exact he

theorem IsCycle.rotate {a b : List Location} {v w : Location} (hc : h.IsCycle v (a ++ w :: b)) :
    h.IsCycle w (w :: b ++ a) := by
  refine ⟨rfl, ?_, (List.nodup_append_comm.1 hc.nodup)⟩
  cases a with
  | nil =>
      obtain rfl : w = v := by simpa using hc.head
      simpa using hc.chain
  | cons v' a =>
      obtain rfl : v' = v := by simpa using hc.head
      have hback : ((w :: b) ++ [v']).IsChain h.Edge := by
        have hchain := hc.chain
        rw [List.append_assoc] at hchain
        exact hchain.right_of_append
      have hthere : ([v'] ++ (a ++ [w])).IsChain h.Edge := by
        have hchain : (([v'] ++ (a ++ [w])) ++ (b ++ [v'])).IsChain h.Edge := by
          simpa using hc.chain
        exact hchain.left_of_append
      simpa using hback.append_overlap hthere (by simp)

theorem exists_first_mem {p c : List Location} (hm : ∃ x ∈ p, x ∈ c) :
    ∃ q w r, p = q ++ w :: r ∧ w ∈ c ∧ ∀ x ∈ q, x ∉ c := by
  induction p with
  | nil => simp at hm
  | cons a p ih =>
      by_cases ha : a ∈ c
      · exact ⟨[], a, p, rfl, ha, by simp⟩
      · obtain ⟨x, hx, hxc⟩ := hm
        rcases List.mem_cons.1 hx with rfl | hx
        · exact absurd hxc ha
        · obtain ⟨q, w, r, rfl, hw, hq⟩ := ih ⟨x, hx, hxc⟩
          refine ⟨a :: q, w, r, rfl, hw, ?_⟩
          intro y hy
          rcases List.mem_cons.1 hy with rfl | hy
          · exact ha
          · exact hq y hy

theorem IsCycle.exists_isPath {c : List Location} {v : Location} (hc : h.IsCycle v c) (hv : h.Reaches v) :
    ∃ q w c', c'.IsRotated c ∧ h.IsCycle w c' ∧ h.IsPath (q ++ c') ∧ w ∉ q := by
  obtain ⟨p, hp⟩ := hv.exists_isPath
  have hvc : v ∈ c := List.mem_of_mem_head? hc.head
  obtain ⟨q, w, r, hpq, hw, hq⟩ := exists_first_mem ⟨v, List.mem_append_right p List.mem_cons_self, hvc⟩
  obtain ⟨a, b, rfl⟩ := List.append_of_mem hw
  have hc' := hc.rotate
  refine ⟨q, w, w :: b ++ a, List.isRotated_append, hc', ?_, fun hwq => hq w hwq hw⟩
  have hqw : h.IsPath (q ++ [w]) := by
    rw [hpq, ← List.singleton_append, ← List.append_assoc] at hp
    exact hp.of_append (by simp)
  refine ⟨?_, ?_, ?_⟩
  · rw [← hqw.head]
    cases q <;> rfl
  · have hround : ([w] ++ (b ++ a)).IsChain h.Edge := hc'.chain.left_of_append
    simpa using hqw.chain.append_overlap hround (by simp)
  · rw [List.nodup_append]
    refine ⟨(List.nodup_append.1 hqw.nodup).1, hc'.nodup, ?_⟩
    intro x hx y hy hxy
    exact hq x hx (List.isRotated_append.mem_iff.1 (hxy ▸ hy))

theorem dropWhile_ne_of_notMem {q c : List Location} {v : Location} (hq : v ∉ q)
    (hc : c.head? = some v) : (q ++ c).dropWhile (· ≠ v) = c := by
  obtain ⟨r, rfl⟩ : ∃ r, c = v :: r := List.head?_eq_some_iff.1 hc
  rw [List.dropWhile_append_of_pos]
  · simp
  · intro x hx
    simpa using fun he : x = v => hq (he ▸ hx)

theorem mem_cyclic_issues_iff {i : Issue} :
    i ∈ h.stream.issues ∧ i.kind = .cyclicImport ↔ ∃ q c u raw n v, h.IsPath (q ++ c) ∧ v ∉ q ∧
      c.head? = some v ∧ c.getLast? = some u ∧ (raw, n) ∈ h.lines u ∧ h.Imports raw v ∧
      i = (ImportProblem.cyclic (c ++ [v])).issue h.settings u n (Text.trim raw) := by
  rw [mem_stream_issues_iff]
  constructor
  · rintro ⟨⟨p, u, raw, n, hp, hl, hi, problem, ho, rfl⟩, hk⟩
    obtain ⟨chain, rfl⟩ := ImportProblem.kind_eq_cyclicImport_iff.1 hk
    obtain ⟨v, hlocate, hread, hv, rfl⟩ := Import.open?_eq_cyclic_iff.1 ho
    obtain ⟨q, r, hqr, hq⟩ := List.eq_append_cons_of_mem hv
    have hlast : (v :: r).getLast? = some u := by
      have hlast := congrArg List.getLast? hqr
      simpa [List.getLast?_append] using hlast.symm
    rw [hqr] at hp ⊢
    refine ⟨q, v :: r, u, raw, n, v, hp, hq, rfl, hlast, hl, ⟨hi, hlocate, hread⟩, ?_⟩
    rw [dropWhile_ne_of_notMem hq rfl]
  · rintro ⟨q, c, u, raw, n, v, hp, hq, hv, hu, hl, ⟨hi, hlocate, hread⟩, rfl⟩
    refine ⟨?_, rfl⟩
    obtain ⟨c, rfl⟩ := List.getLast?_eq_some_iff.1 hu
    rw [← List.append_assoc] at hp
    refine ⟨q ++ c, u, raw, n, hp, hl, hi, _, Import.open?_eq_cyclic_iff.2 ⟨v, hlocate, hread, ?_, rfl⟩, ?_⟩
    · rw [List.append_assoc]
      exact List.mem_append_right q (List.mem_of_mem_head? hv)
    · rw [List.append_assoc q c [u], dropWhile_ne_of_notMem hq hv]

theorem IsPath.exists_cyclic_issue {q c : List Location} {v : Location} (hp : h.IsPath (q ++ c))
    (hq : v ∉ q) (hc : h.IsCycle v c) : ∃ i ∈ h.stream.issues, i.kind = .cyclicImport ∧
      i.message = "Cyclic import: " ++ " -> ".intercalate
        ((c ++ [v]).map fun l => h.settings.display (.ofLocation l)) ++ "." := by
  have hne : c ≠ [] := by
    rintro rfl
    cases hc.head
  obtain ⟨u, hu⟩ : ∃ u, c.getLast? = some u := ⟨_, List.getLast?_eq_some_getLast hne⟩
  obtain ⟨raw, n, hl, hi⟩ : h.Edge u v := (List.isChain_append.1 hc.chain).2.2 u hu v rfl
  obtain ⟨hm, hk⟩ := mem_cyclic_issues_iff.2 ⟨q, c, u, raw, n, v, hp, hq, hc.head, hu, hl, hi, rfl⟩
  exact ⟨_, hm, hk, rfl⟩

theorem exists_isCycle_of_mem_issues {i : Issue} (hi : i ∈ h.stream.issues) (hk : i.kind = .cyclicImport) :
    ∃ (u : Location) (n : Nat) (raw : String) (v : Location) (c : List Location), i.file = .ofLocation u ∧
      i.line = n ∧ (raw, n) ∈ h.lines u ∧ h.Imports raw v ∧ h.Reaches v ∧ h.IsCycle v c ∧
      c.getLast? = some u ∧
      i.message = "Cyclic import: " ++ " -> ".intercalate
        ((c ++ [v]).map fun l => h.settings.display (.ofLocation l)) ++ "." := by
  obtain ⟨q, c, u, raw, n, v, hp, _, hv, hu, hl, hv', rfl⟩ := mem_cyclic_issues_iff.1 ⟨hi, hk⟩
  refine ⟨u, n, raw, v, c, rfl, rfl, hl, hv', ?_, hp.isCycle hv hu ⟨raw, n, hl, hv'⟩, hu, rfl⟩
  exact hp.reaches_of_mem (List.mem_append_right q (List.mem_of_mem_head? hv))

theorem exists_cyclic_issue_at_iff {u : Location} {n : Nat} :
    (∃ i ∈ h.stream.issues, i.kind = .cyclicImport ∧ i.file = .ofLocation u ∧ i.line = n) ↔
      ∃ raw v p, (raw, n) ∈ h.lines u ∧ h.Imports raw v ∧ h.IsPath p ∧ p.getLast? = some u ∧ v ∈ p := by
  constructor
  · rintro ⟨i, hi, hk, hf, hn⟩
    obtain ⟨q, c, u', raw, n', v, hp, _, hv, hu, hl, hv', rfl⟩ := mem_cyclic_issues_iff.1 ⟨hi, hk⟩
    obtain rfl := Path.ofLocation_inj.1 hf
    obtain rfl : n' = n := Int.ofNat.inj hn
    refine ⟨raw, v, q ++ c, hl, hv', hp, ?_, List.mem_append_right q (List.mem_of_mem_head? hv)⟩
    rw [List.getLast?_append, hu]
    rfl
  · rintro ⟨raw, v, p, hl, hv, hp, hu, hm⟩
    obtain ⟨q, r, rfl, hq⟩ := List.eq_append_cons_of_mem hm
    have hu : (v :: r).getLast? = some u := by simpa [List.getLast?_append] using hu
    obtain ⟨hi, hk⟩ := mem_cyclic_issues_iff.2 ⟨q, v :: r, u, raw, n, v, hp, hq, rfl, hu, hl, hv, rfl⟩
    exact ⟨_, hi, hk, rfl, rfl⟩

/-- A cyclic import is reported where it closes a cycle, with that cycle; every cycle that the document
leads to is reported, and nothing else is. -/
theorem cyclic_issues_exact {path : Path} {given : Option String} (hr : h.ReadFrom path given) :
    ∃ st, Document.stream h.settings h.tree path given = .ok st ∧
      (∀ (u : Location) (n : Nat),
        (∃ i ∈ st.issues, i.kind = .cyclicImport ∧ i.file = .ofLocation u ∧ i.line = n) ↔
          ∃ raw v p, (raw, n) ∈ h.lines u ∧ h.Imports raw v ∧
            h.IsPath p ∧ p.getLast? = some u ∧ v ∈ p) ∧
      (∀ i ∈ st.issues, i.kind = .cyclicImport → ∃ (u : Location) (n : Nat) (raw : String) (v : Location)
        (c : List Location), i.file = .ofLocation u ∧ i.line = n ∧ (raw, n) ∈ h.lines u ∧
          h.Imports raw v ∧ h.Reaches v ∧ h.IsCycle v c ∧ c.getLast? = some u ∧
          i.message = "Cyclic import: " ++ " -> ".intercalate
            ((c ++ [v]).map fun l => h.settings.display (.ofLocation l)) ++ ".") ∧
      (∀ v c, h.Reaches v → h.IsCycle v c → ∃ i ∈ st.issues, i.kind = .cyclicImport ∧
        ∃ w c', c'.IsRotated c ∧ c'.head? = some w ∧
          i.message = "Cyclic import: " ++ " -> ".intercalate
            ((c' ++ [w]).map fun l => h.settings.display (.ofLocation l)) ++ ".") ∧
      ((∀ v c, h.Reaches v → ¬h.IsCycle v c) → ∀ i ∈ st.issues, i.kind ≠ .cyclicImport) := by
  refine ⟨h.stream, hr.stream, fun u n => exists_cyclic_issue_at_iff,
    fun i => exists_isCycle_of_mem_issues, ?_, ?_⟩
  · intro v c hv hc
    obtain ⟨q, w, c', hrot, hc', hp, hw⟩ := hc.exists_isPath hv
    obtain ⟨i, hi, hk, hmessage⟩ := hp.exists_cyclic_issue hw hc'
    exact ⟨i, hi, hk, w, c', hrot, hc'.head, hmessage⟩
  · intro hnone i hi hk
    obtain ⟨_, _, _, v, c, _, _, _, _, hv, hc, _⟩ := exists_isCycle_of_mem_issues hi hk
    exact hnone v c hv hc

theorem crossing_isCycle {v : Location} {c : List Location} (hc : crossing.IsCycle v c)
    (hlast : c.getLast? = some (place "/w/m/b")) : c ++ [v] = ["/w/m/a", "/w/m/b", "/w/m/a"].map place := by
  have ha : ∀ x, crossing.Edge (place "/w/m/a") x → x ∈ [place "/w/m/b"] :=
    fun x he => he.mem_of_lines (by decide +kernel)
  have hb : ∀ x, crossing.Edge (place "/w/m/b") x → x ∈ [place "/w/m/a", place "/w/m/c"] :=
    fun x he => he.mem_of_lines (by decide +kernel)
  have hend : ∀ rest x, ¬(place "/w/m/c" :: (rest ++ [x])).IsChain crossing.Edge := by
    intro rest x hchain
    obtain ⟨y, tail, htail⟩ : ∃ y tail, rest ++ [x] = y :: tail := List.exists_cons_of_ne_nil (by simp)
    rw [htail, List.isChain_cons_cons] at hchain
    have hnone : y ∈ ([] : List Location) := hchain.1.mem_of_lines (by decide +kernel)
    cases hnone
  obtain ⟨c, rfl⟩ := List.head?_eq_some_iff.1 hc.head
  have hchain := hc.chain
  have hback : v ∈ [place "/w/m/a", place "/w/m/c"] :=
    hb v ((List.isChain_append.1 hchain).2.2 _ hlast v rfl)
  obtain rfl | rfl : v = place "/w/m/a" ∨ v = place "/w/m/c" := by simpa using hback
  · cases c with
    | nil => exact absurd (Option.some.inj hlast) (by decide +kernel)
    | cons x c =>
        simp only [List.cons_append, List.isChain_cons_cons] at hchain
        obtain rfl := List.mem_singleton.1 (ha x hchain.1)
        cases c with
        | nil => rfl
        | cons y c =>
            simp only [List.cons_append, List.isChain_cons_cons] at hchain
            obtain rfl | rfl : y = place "/w/m/a" ∨ y = place "/w/m/c" := by simpa using hb y hchain.2.1
            · exact absurd hc.nodup (by simp)
            · exact absurd hchain.2.2 (hend c _)
  · exact absurd hchain (hend c _)

/-- The last line of `b` leads back to `a`. -/
theorem crossing_cyclic_issues_exact :
    crossing.ReadFrom (.ofString "d") none ∧
      ∃ st, Document.stream crossing.settings crossing.tree (.ofString "d") none = .ok st ∧
        ∃ i ∈ st.issues, i.kind = .cyclicImport ∧ i.file = .ofLocation (place "/w/m/b") ∧ i.line = 2 ∧
          i.message = "Cyclic import: m/a -> m/b -> m/a." := by
  obtain ⟨st, hst, hiff, hsound, _⟩ := cyclic_issues_exact crossing_readFrom
  have hpath : crossing.IsPath (["/w/d", "/w/m/a", "/w/m/b"].map place) :=
    crossing_isPath.of_append (q := [place "/w/m/c"]) (by simp)
  have hline : ("!a", 2) ∈ crossing.lines (place "/w/m/b") := by decide +kernel
  have himports : crossing.Imports "!a" (place "/w/m/a") := by decide +kernel
  obtain ⟨i, hi, hk, hf, hn⟩ :=
    (hiff (place "/w/m/b") 2).2 ⟨"!a", place "/w/m/a", _, hline, himports, hpath, rfl, by simp⟩
  refine ⟨crossing_readFrom, st, hst, i, hi, hk, hf, hn, ?_⟩
  obtain ⟨u, n, raw, v, c, hf', hn', hl, hv, hreaches, hc, hu, hmessage⟩ := hsound i hi hk
  obtain rfl := Path.ofLocation_inj.1 (hf'.symm.trans hf)
  rw [hmessage, crossing_isCycle hc hu]
  decide +kernel

end Hierarchy

end LayeredConfig
