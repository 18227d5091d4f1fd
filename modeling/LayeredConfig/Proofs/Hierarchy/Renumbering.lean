import LayeredConfig.Proofs.Hierarchy.Simulation

namespace LayeredConfig

/-- A line of the document, at depth zero, gets its new number; those of other files keep theirs. -/
def Directive.renumber (ρ : Int → Int) (d : Directive) : Directive :=
  if d.depth = 0 then { d with line := ρ d.line } else d

def Issue.renumber (root : Location) (ρ : Int → Int) (i : Issue) : Issue :=
  if i.file = .ofLocation root then { i with line := ρ i.line } else i

namespace Item

def renumber (root : Location) (ρ : Int → Int) : Item → Item
  | directive d => directive (d.renumber ρ)
  | issue i => issue (i.renumber root ρ)
  | failure e => failure e

variable (root : Location) (ρ : Int → Int) (xs : List Item)

theorem filterMap_directive?_renumber : (xs.map (renumber root ρ)).filterMap directive? =
    (xs.filterMap directive?).map (Directive.renumber ρ) := by
  rw [List.filterMap_map, List.map_filterMap]
  congr 1
  funext x
  cases x <;> rfl

theorem filterMap_issue?_renumber : (xs.map (renumber root ρ)).filterMap issue? =
    (xs.filterMap issue?).map (Issue.renumber root ρ) := by
  rw [List.filterMap_map, List.map_filterMap]
  congr 1
  funext x
  cases x <;> rfl

theorem findSome?_failure?_renumber :
    (xs.map (renumber root ρ)).findSome? failure? = xs.findSome? failure? := by
  rw [List.findSome?_map]
  congr 1
  funext x
  cases x <;> rfl

end Item

namespace Visit

structure Below (root : Location) (v : Visit) : Prop where
  root_mem : root ∈ v.importers
  file_ne : v.file ≠ root

variable {s : Settings} {t : FileTree} {root : Location} {v w : Visit} {x : Item}

theorem Opens.below (ho : Opens s t v w) (hv : root ∈ v.active) : w.Below root := by
  obtain ⟨hw, line, _, hr⟩ := ho
  obtain ⟨_, hnew⟩ := Stream.mem_files_of_readLine s t hr
  exact ⟨hw ▸ hv, fun he => hnew (he ▸ hv)⟩

theorem Below.of_reflTransGen (hv : v.Below root) (hw : Relation.ReflTransGen (Opens s t) v w) :
    w.Below root := by
  induction hw with
  | refl => exact hv
  | tail _ ho ih => exact ho.below (List.mem_append_left _ ih.root_mem)

theorem Below.renumber_of_has (hv : v.Below root) (hx : v.Has s t x) (ρ : Int → Int) :
    x.renumber root ρ = x := by
  obtain ⟨⟨raw, m⟩, _, items, hr, hx⟩ := hx
  cases x with
  | directive d =>
      obtain ⟨_, rfl⟩ := Stream.directive_mem_readLine_iff.1 ⟨items, hr, hx⟩
      have hdepth : v.importers ≠ [] := List.ne_nil_of_mem hv.root_mem
      exact congrArg Item.directive (if_neg (by simpa using hdepth))
  | issue i =>
      obtain ⟨_, problem, _, rfl⟩ := Stream.issue_mem_readLine_iff.1 ⟨items, hr, hx⟩
      exact congrArg Item.issue (if_neg fun he => hv.file_ne (Path.ofLocation_inj.1 he))
  | failure e => rfl

theorem Below.map_renumber (hv : v.Below root) (ρ : Int → Int) :
    (v.items s t).map (Item.renumber root ρ) = v.items s t := by
  have hstay : ∀ x ∈ v.items s t, x.renumber root ρ = id x := by
    intro x hx
    obtain ⟨w, hw, hx⟩ := mem_items_iff.1 hx
    exact (hv.of_reflTransGen hw).renumber_of_has hx ρ
  rw [List.map_congr_left hstay, List.map_id]

end Visit

namespace Stream

variable {s : Settings} {t : FileTree} (root : Location) {ρ : Int → Int} {n n' : Nat}

theorem readLine_renumber (raw : String) (hn : (n' : Int) = ρ n) :
    readLine s t [] root raw n' = match readLine s t [] root raw n with
      | .items items => .items (items.map (Item.renumber root ρ))
      | .file target content => .file target content := by
  by_cases hb : Text.trim raw = ""
  · rw [readLine_of_blank hb, readLine_of_blank hb]
    rfl
  rcases Line.isContent_or_isImport hb with hc | hi
  · rw [readLine_of_isContent hc, readLine_of_isContent hc]
    simp [Item.renumber, Directive.renumber, Line.directive, hn]
  · rw [readLine_of_isImport hi, readLine_of_isImport hi]
    split
    · rfl
    · rename_i obstruction _
      cases obstruction with
      | problem => simp [Item.renumber, Issue.renumber, Obstruction.item, ImportProblem.issue, hn]
      | failure => rfl

theorem expandLine_renumber (raw : String) (hn : (n' : Int) = ρ n) :
    expandLine s t [] root raw n' = (expandLine s t [] root raw n).map (Item.renumber root ρ) := by
  unfold expandLine
  rw [readLine_renumber root raw hn]
  cases hr : readLine s t [] root raw n with
  | items items => rfl
  | file target content =>
      have hv : Visit.Below root ⟨[root], target, content⟩ := by
        refine ⟨List.mem_singleton_self root, fun he => ?_⟩
        exact (mem_files_of_readLine s t hr).2 (he ▸ List.mem_singleton_self root)
      exact (hv.map_renumber ρ).symm

end Stream

end LayeredConfig
