import Mathlib.Tactic.Simps.Basic
import LayeredConfig.Proofs.Relocation

namespace LayeredConfig

/-- The same line, with one more import on the way to it. -/
@[simps]
def Directive.deepen (d : Directive) : Directive := { d with depth := d.depth + 1 }

def Issue.deepen (i : Issue) : Issue := { i with directive := i.directive.map Directive.deepen }

theorem Directive.relocates_deepen : Relocates deepen :=
  ⟨deepen_file, deepen_kind, deepen_key, deepen_value, deepen_text⟩

namespace Config

variable (c : Config) {d : Directive} {ds : List Directive}

/-- The entry goes to the end, and its key is nowhere else. -/
def moveToEnd (es : List (String × String)) (e : String × String) : List (String × String) :=
  es.filter (·.1 ≠ e.1) ++ [e]

/-- First the excluded keys are taken away, and then every inclusion moves its key to the end. -/
def overlay (ds : List Directive) : Config where
  entries := ((ds.filter (·.kind = .inclusion)).map fun d => (d.key, d.value)).foldl moveToEnd
    (c.entries.filter (·.1 ∉ (ds.filter (·.kind = .exclusion)).map Directive.key))

theorem entries_insert (key value : String) : (c.insert key value).entries = moveToEnd c.entries (key, value) :=
  rfl

theorem entries_foldl_exclusions (hds : ∀ d ∈ ds, d.kind = .exclusion) :
    (ds.foldl apply c).entries = c.entries.filter (·.1 ∉ ds.map Directive.key) := by
  induction ds generalizing c with
  | nil => simp
  | cons d ds ih =>
      obtain ⟨hd, hds⟩ := List.forall_mem_cons.1 hds
      have happly : (c.apply d).entries = c.entries.filter (·.1 ≠ d.key) := by rw [apply, hd, erase]
      rw [List.foldl_cons, ih _ hds, happly, List.filter_filter]
      congr 1
      funext e
      simp [Bool.and_comm]

theorem entries_foldl_others (ds : List Directive) :
    ((ds.filter (·.kind ≠ .exclusion)).foldl apply c).entries =
      ((ds.filter (·.kind = .inclusion)).map fun d => (d.key, d.value)).foldl moveToEnd c.entries := by
  induction ds generalizing c with
  | nil => rfl
  | cons d ds ih =>
      cases hd : d.kind with
      | exclusion => simpa [hd] using ih c
      | inclusion | importing | comment => simpa [hd, apply, entries_insert] using ih (c.apply d)

theorem overlay_eq_foldl (ds : List Directive) :
    c.overlay ds = (ds.filter (·.kind ≠ .exclusion)).foldl apply
      ((ds.filter (·.kind = .exclusion)).foldl apply c) := by
  have hexclusions : ∀ d ∈ ds.filter (·.kind = .exclusion), d.kind = .exclusion :=
    fun d hd => by simpa using (List.mem_filter.1 hd).2
  rw [overlay, ← entries_foldl_exclusions c hexclusions, ← entries_foldl_others]

end Config

namespace Effective

variable {d : Directive} {ds es l r : List Directive}

theorem exists_stage_cons (d : Directive) (ds : List Directive) :
    ∃ l r, stage ds = l ++ r ∧ stage (d :: ds) = l ++ d :: r ∧ (∀ e ∈ l, ¬appliesBefore d e) ∧
      ∀ e ∈ r, appliesBefore d e :=
  StableSort.exists_mergeSort_cons (fun a b c => @appliesBefore_trans a b c) appliesBefore_total d ds

theorem stage_cons (hds : stage ds = l ++ r) (hl : ∀ e ∈ l, ¬appliesBefore d e)
    (hr : ∀ e ∈ r, appliesBefore d e) : stage (d :: ds) = l ++ d :: r :=
  StableSort.mergeSort_cons (fun a b c => @appliesBefore_trans a b c) appliesBefore_total hds hl hr

theorem stage_append (hlt : ∀ d ∈ ds, ∀ e ∈ es, e.depth < d.depth) :
    stage (ds ++ es) = stage ds ++ stage es := by
  induction ds with
  | nil => simp [stage]
  | cons d ds ih =>
      obtain ⟨l, r, hds, hcons, hl, hr⟩ := exists_stage_cons d ds
      have ih := ih fun a ha => hlt a (List.mem_cons_of_mem d ha)
      rw [List.cons_append, hcons, List.append_assoc, List.cons_append]
      refine stage_cons (by rw [ih, hds, List.append_assoc]) hl fun e he => ?_
      rcases List.mem_append.1 he with he | he
      · exact hr e he
      · have hd := hlt d List.mem_cons_self e (List.mem_mergeSort.1 he)
        simp [appliesBefore, hd]

theorem stage_of_level {k : Int} (hk : ∀ d ∈ ds, d.depth = k) :
    stage ds = ds.filter (·.kind = .exclusion) ++ ds.filter (·.kind ≠ .exclusion) := by
  induction ds with
  | nil => simp [stage]
  | cons d ds ih =>
      obtain ⟨hd, hds⟩ := List.forall_mem_cons.1 hk
      have hbefore : ∀ e ∈ ds, appliesBefore d e ↔ d.kind = .exclusion ∨ e.kind ≠ .exclusion := by
        intro e he
        simp [appliesBefore, hd, hds e he]
      by_cases hkind : d.kind = .exclusion
      · rw [List.filter_cons_of_pos (by simpa using hkind), List.filter_cons_of_neg (by simpa using hkind)]
        refine stage_cons (l := []) (ih hds) (by simp) fun e he => ?_
        have he : e ∈ ds := by
          rcases List.mem_append.1 he with he | he <;> exact List.mem_of_mem_filter he
        exact (hbefore e he).2 (.inl hkind)
      · rw [List.filter_cons_of_neg (by simpa using hkind), List.filter_cons_of_pos (by simpa using hkind)]
        refine stage_cons (ih hds) ?_ ?_
        · intro e he
          obtain ⟨he, hx⟩ := List.mem_filter.1 he
          rw [hbefore e he]
          simpa [hkind] using hx
        · intro e he
          obtain ⟨he, hx⟩ := List.mem_filter.1 he
          exact (hbefore e he).2 (.inr (by simpa using hx))

theorem config_deepen (ds : List Directive) : config (ds.map Directive.deepen) = config ds :=
  Directive.relocates_deepen.config_map fun a _ b _ => by simp [appliesBefore]

theorem config_append {k : Int} (hds : ∀ d ∈ ds, k < d.depth) (hes : ∀ e ∈ es, e.depth = k) :
    config (ds ++ es) = (config ds).overlay es := by
  have hlt : ∀ d ∈ ds, ∀ e ∈ es, e.depth < d.depth := fun d hd e he => hes e he ▸ hds d hd
  rw [config, stage_append hlt, List.foldl_append, stage_of_level hes, List.foldl_append,
    Config.overlay_eq_foldl, config]

theorem config_of_level {k : Int} (hds : ∀ d ∈ ds, d.depth = k) : config ds = Config.empty.overlay ds := by
  rw [config, stage_of_level hds, List.foldl_append, Config.overlay_eq_foldl]

end Effective

namespace Precedence

theorem precedes_deepen (a b : Directive) : precedes a.deepen b.deepen = precedes a b := by
  simp [precedes]

end Precedence

namespace Override

variable {root : Path}

theorem issuesFrom_deepen (root : Path) (earlier ds : List Directive) :
    issuesFrom root (earlier.map Directive.deepen) (ds.map Directive.deepen) =
      (issuesFrom root earlier ds).map Issue.deepen := by
  have hsame : List.Forall₂ (fun i i' => i.deepen = i') (issuesFrom root earlier ds)
      (issuesFrom root (earlier.map Directive.deepen) (ds.map Directive.deepen)) :=
    Directive.relocates_deepen.issuesFrom_map (fun _ _ _ => rfl) (fun _ _ => rfl) earlier
  rw [← List.forall₂_map_left_iff, List.forall₂_eq_eq_eq] at hsame
  exact hsame.symm

theorem anchor_of_mem_issuesFrom {earlier ds : List Directive} {i : Issue}
    (hi : i ∈ issuesFrom root earlier ds) : ∃ d ∈ ds, i.anchor = d.anchor := by
  obtain ⟨before, d, after, rfl, hj⟩ := mem_issuesFrom_iff.1 hi
  exact ⟨d, List.mem_append_right before List.mem_cons_self, judge_anchor hj⟩

theorem issues_append (root : Path) (ds es : List Directive) :
    ∃ is, issues root (ds.map Directive.deepen ++ es) = (issues root ds).map Issue.deepen ++ is ∧
      ∀ i ∈ is, ∃ e ∈ es, i.anchor = e.anchor := by
  refine ⟨issuesFrom root (ds.map Directive.deepen).reverse es, ?_,
    fun i hi => anchor_of_mem_issuesFrom hi⟩
  have hds := issuesFrom_deepen root [] ds
  rw [List.map_nil] at hds
  rw [issues, issues, issuesFrom_append, hds, List.append_nil]

end Override

end LayeredConfig
