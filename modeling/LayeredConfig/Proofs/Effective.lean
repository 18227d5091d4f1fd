import Mathlib.Data.List.Induction
import LayeredConfig.Effective
import LayeredConfig.Proofs.StableSort

namespace LayeredConfig

def Directive.mentions (d : Directive) (key : String) : Bool := d.isJudged ∧ d.key = key

theorem Directive.mentions_iff {d : Directive} {key : String} :
    d.mentions key ↔ (d.kind = .inclusion ∨ d.kind = .exclusion) ∧ d.key = key := by
  simp [mentions, isJudged]

namespace Effective

variable {ds : List Directive} {key : String} {d : Directive}

theorem appliesBefore_total (a b : Directive) : appliesBefore a b || appliesBefore b a := by
  simp only [appliesBefore, Bool.or_eq_true, Bool.and_eq_true, decide_eq_true_eq]
  by_cases ha : a.kind = .exclusion <;> by_cases hb : b.kind = .exclusion <;> simp [ha, hb] <;> omega

theorem appliesBefore_trans {a b c : Directive} (hab : appliesBefore a b) (hbc : appliesBefore b c) :
    appliesBefore a c := by
  simp only [appliesBefore, Bool.or_eq_true, Bool.and_eq_true, decide_eq_true_eq] at *
  grind

theorem stage_filter (p : Directive → Bool) (ds : List Directive) :
    stage (ds.filter p) = (stage ds).filter p :=
  (StableSort.filter_mergeSort (fun a b c => @appliesBefore_trans a b c) appliesBefore_total p ds).symm

theorem config_filter_isJudged (ds : List Directive) :
    config (ds.filter (·.isJudged)) = config ds := by
  rw [config, config, stage_filter, List.foldl_filter]
  congr 1
  funext c d
  cases hd : d.kind <;> simp [Directive.isJudged, Config.apply, hd]

theorem foldl_apply_of_inclusions (hkind : ∀ d ∈ ds, d.kind = .inclusion) (hkeys : (ds.map (·.key)).Nodup) :
    ds.foldl Config.apply .empty = ⟨ds.map fun d => (d.key, d.value)⟩ := by
  induction ds using List.reverseRecOn with
  | nil => rfl
  | append_singleton ds d ih =>
      rw [List.forall_mem_append] at hkind
      rw [List.map_append, List.nodup_append] at hkeys
      have hd : d.kind = .inclusion := hkind.2 d (List.mem_singleton_self d)
      have herase : (ds.map fun d => (d.key, d.value)).filter (·.1 ≠ d.key) =
          ds.map fun d => (d.key, d.value) := by
        refine List.filter_eq_self.2 fun e he => ?_
        obtain ⟨a, ha, rfl⟩ := List.mem_map.1 he
        exact decide_eq_true (hkeys.2.2 a.key (List.mem_map_of_mem ha) d.key (List.mem_singleton_self _))
      rw [List.foldl_append, ih hkind.1 hkeys.1, List.foldl_cons, List.foldl_nil, Config.apply, hd,
        Config.insert, Config.erase, herase, List.map_append, List.map_singleton]

theorem config_of_inclusions {k : Int} (hdepth : ∀ d ∈ ds, d.depth = k)
    (hkind : ∀ d ∈ ds, d.kind = .inclusion) (hkeys : (ds.map (·.key)).Nodup) :
    config ds = ⟨ds.map fun d => (d.key, d.value)⟩ := by
  have hstage : stage ds = ds := by
    apply List.mergeSort_of_pairwise
    apply List.pairwise_of_forall_mem_list
    intro a ha b hb
    simp [appliesBefore, hdepth a ha, hdepth b hb, hkind b hb]
  rw [config, hstage, foldl_apply_of_inclusions hkind hkeys]

end Effective

end LayeredConfig
