import LayeredConfig.Proofs.Hierarchy.Revision
import LayeredConfig.Proofs.Overlay

namespace LayeredConfig.Hierarchy

variable {h h' : Hierarchy} {u v : Location} {raw : String} {d : Directive}

theorem filter_append_filter_not {α : Type} {p : α → Bool} {xs : List α}
    (h : xs.Pairwise fun a b => p b → p a) : xs.filter p ++ xs.filter (fun a => !p a) = xs := by
  induction xs with
  | nil => rfl
  | cons x xs ih =>
      obtain ⟨hx, hxs⟩ := List.pairwise_cons.1 h
      by_cases hp : p x
      · rw [List.filter_cons_of_pos hp, List.filter_cons_of_neg (by simp [hp]), List.cons_append, ih hxs]
      · have hnone : ∀ a ∈ xs, ¬p a := fun a ha hpa => hp (hx a ha hpa)
        rw [List.filter_cons_of_neg hp, List.filter_eq_nil_iff.2 hnone, List.nil_append,
          List.filter_eq_self.2]
        intro a ha
        rcases List.mem_cons.1 ha with rfl | ha
        · simpa using hp
        · simpa using hnone a ha

def inherited (h : Hierarchy) : List Directive := h.directives.filter (·.file ≠ .ofLocation h.root)

theorem exists_directives_eq (h : Hierarchy) : ∃ own : List Directive, h.directives = h.inherited ++ own ∧
    ∀ d ∈ own, d.file = .ofLocation h.root := by
  refine ⟨_, (filter_append_filter_not ?_).symm, fun d hd => by simpa using (List.mem_filter.1 hd).2⟩
  refine (Precedence.order_pairwise h.stream.directives).imp_of_mem fun {d e} hd he hp hef => ?_
  rw [decide_eq_true_eq] at hef ⊢
  intro hdf
  have hle := Precedence.depth_le_of_precedes hp
  rw [(depth_eq_zero_iff hd).2 hdf] at hle
  exact hef ((depth_eq_zero_iff he).1 (Int.le_antisymm hle (depth_nonneg he)))

theorem filter_inherited_issues (h : Hierarchy) :
    h.issues.filter (fun i => (i.kind = .redefinedWithoutExclusion ∨ i.kind = .unnecessaryRedefinition) ∧
      i.file ≠ .ofLocation h.root) = Override.issues h.settings.root h.inherited := by
  obtain ⟨own, hds, hown⟩ := h.exists_directives_eq
  have hsplit : h.issues.filter (fun i => (i.kind = .redefinedWithoutExclusion ∨
      i.kind = .unnecessaryRedefinition) ∧ i.file ≠ .ofLocation h.root) =
      (Override.issues h.settings.root h.directives).filter (·.file ≠ .ofLocation h.root) := by
    rw [← filter_override, List.filter_filter]
    congr 1
    funext i
    rw [Bool.decide_and, Bool.and_comm]
  rw [hsplit, hds, Override.issues, Override.issuesFrom_append, List.filter_append, ← Override.issues,
    List.filter_eq_self.2, List.filter_eq_nil_iff.2, List.append_nil]
  · intro i hi
    obtain ⟨d, hd, ha⟩ := Override.anchor_of_mem_issuesFrom hi
    simpa using (Prod.mk.inj ha).1.trans (hown d hd)
  · intro i hi
    obtain ⟨d, hd, _, ha, _⟩ := Override.exists_of_mem hi
    simpa [(Prod.mk.inj ha).1] using (List.mem_filter.1 hd).2

/-- Another text of the document, with imports of the same files. -/
structure Rewording (h h' : Hierarchy) : Prop where
  settings : h'.settings = h.settings
  tree : h'.tree = h.tree
  root : h'.root = h.root
  imports : {v | h'.Edge h'.root v} = {v | h.Edge h.root v}

namespace Rewording

variable (hw : Rewording h h')

include hw

theorem symm : Rewording h' h :=
  ⟨hw.settings.symm, hw.tree.symm, hw.root.symm, hw.imports.symm⟩

theorem lines_eq (hu : u ≠ h.root) : h'.lines u = h.lines u := by
  rw [lines, lines, text?, text?, hw.root, if_neg hu, if_neg hu, hw.tree]

theorem edge_of_edge (he : h.Edge u v) : h'.Edge u v := by
  by_cases hu : u = h.root
  · subst hu
    rw [← hw.root]
    exact (Set.ext_iff.1 hw.imports v).2 he
  · obtain ⟨raw, n, hl, hi⟩ := he
    refine ⟨raw, n, hw.lines_eq hu ▸ hl, ?_⟩
    rw [Imports, hw.settings, hw.tree]
    exact hi

theorem pathLengths_eq (file : Location) : h'.pathLengths file = h.pathLengths file :=
  Set.Subset.antisymm (pathLengths_subset hw.root.symm (fun _ _ _ => hw.symm.edge_of_edge) file)
    (pathLengths_subset hw.root (fun _ _ _ => hw.edge_of_edge) file)

theorem inherited_subset : h.inherited ⊆ h'.inherited := by
  intro d hd
  obtain ⟨hd, hf⟩ := List.mem_filter.1 hd
  obtain ⟨file, raw, n, k, hl, hc, hk, rfl⟩ := line_of_mem_directives hd
  have hfile : file ≠ h.root := by simpa using hf
  rw [← hw.lines_eq hfile] at hl
  rw [← hw.pathLengths_eq] at hk
  refine List.mem_filter.2 ⟨mem_directives_iff.2 ⟨file, raw, n, k, hl, hc, hk, ?_⟩, ?_⟩
  · rw [hw.settings]
  · rwa [hw.root]

theorem inherited_eq : h'.inherited = h.inherited := by
  have hsorted (g : Hierarchy) : g.inherited.Pairwise fun a b => Precedence.precedes a b :=
    (Precedence.order_pairwise _).sublist List.filter_sublist
  have hnodup (g : Hierarchy) : (g.inherited.map Directive.anchor).Nodup :=
    (Precedence.nodup_order _).sublist (List.filter_sublist.map _)
  exact Precedence.eq_of_mem_iff (hsorted h) (hsorted h') (hnodup h) (hnodup h') fun d =>
    ⟨fun hd => hw.symm.inherited_subset hd, fun hd => hw.inherited_subset hd⟩

end Rewording

/-- Whatever a document says, it cannot change how the files that it inherits from are judged. -/
theorem ancestors_judged_alike {path : Path} {given given' : Option String} (hr : h.ReadFrom path given)
    (hr' : h'.ReadFrom path given') (hw : Rewording h h') :
    ∃ is is', Document.issues h.settings h.tree path given = .ok is ∧
      Document.issues h'.settings h'.tree path given' = .ok is' ∧
      is'.filter (fun i => (i.kind = .redefinedWithoutExclusion ∨ i.kind = .unnecessaryRedefinition) ∧
          i.file ≠ .ofLocation h.root) =
        is.filter fun i => (i.kind = .redefinedWithoutExclusion ∨ i.kind = .unnecessaryRedefinition) ∧
          i.file ≠ .ofLocation h.root := by
  refine ⟨h.issues, h'.issues, hr.issues, hr'.issues, ?_⟩
  have hfilter := h'.filter_inherited_issues
  rw [hw.root] at hfilter
  rw [hfilter, filter_inherited_issues, hw.settings, hw.inherited_eq]

/-- The document `d` and the file `mid` give `A` another value than `base`, and only `d` takes it back. -/
def contested : Hierarchy where
  settings := ⟨.ofString "/w", .ofString "/w/m", "x", .inclusion⟩
  tree := {
    here := place "/w"
    entries := [
      (place "/w", .directory), (place "/w/m", .directory),
      (place "/w/d", .file "!mid\n-A\nA=3".toUTF8.data.toList),
      (place "/w/m/mid", .file "!base\nA=2".toUTF8.data.toList),
      (place "/w/m/base", .file "A=1".toUTF8.data.toList)]
    nodup := by decide +kernel }
  root := place "/w/d"
  content := "!mid\n-A\nA=3"

def reworded : Hierarchy := { contested with content := "A=1\n\n  !mid\n-A\n!gone\nA=2\n!mid\r" }

theorem contested_readFrom : contested.ReadFrom (.ofString "d") none :=
  FoundAt.readFrom ⟨by decide +kernel, by decide +kernel⟩ (by decide +kernel)

theorem reworded_readFrom : reworded.ReadFrom (.ofString "d") (some reworded.content) :=
  FoundAt.readFrom ⟨by decide +kernel, rfl⟩ (by decide +kernel)

theorem reworded_rewording : Rewording contested reworded where
  settings := rfl
  tree := rfl
  root := rfl
  imports := by
    have hfiles : ∀ v ∈ contested.tree.files,
        (∃ line ∈ reworded.lines reworded.root, reworded.Imports line.1 v) ↔
          ∃ line ∈ contested.lines contested.root, contested.Imports line.1 v := by decide +kernel
    ext v
    constructor
    · rintro ⟨raw, n, hl, hi⟩
      obtain ⟨line, hl', hi'⟩ := (hfiles v hi.mem_files).1 ⟨(raw, n), hl, hi⟩
      exact ⟨line.1, line.2, hl', hi'⟩
    · rintro ⟨raw, n, hl, hi⟩
      obtain ⟨line, hl', hi'⟩ := (hfiles v hi.mem_files).2 ⟨(raw, n), hl, hi⟩
      exact ⟨line.1, line.2, hl', hi'⟩

theorem contested_directives : contested.directives = [
    Line.directive .inclusion (place "/w/m/base") "A=1" 1 2, Line.directive .inclusion (place "/w/m/mid") "A=2" 2 1,
    Line.directive .inclusion (place "/w/d") "-A" 2 0, Line.directive .inclusion (place "/w/d") "A=3" 3 0] :=
  (Precedence.eq_order_of_perm (by decide +kernel) (by decide +kernel) (by decide +kernel)).symm

/-- The line of `mid` that gives `A` another value is reported, whatever the document says on `A`. -/
theorem contested_ancestors_judged_alike :
    contested.ReadFrom (.ofString "d") none ∧
      reworded.ReadFrom (.ofString "d") (some reworded.content) ∧ Rewording contested reworded ∧
      ∃ is', Document.issues reworded.settings reworded.tree (.ofString "d") (some reworded.content) = .ok is' ∧
        ∃ i ∈ is', i.kind = .redefinedWithoutExclusion ∧ i.anchor = (.ofLocation (place "/w/m/mid"), 2) := by
  obtain ⟨is, is', his, his', hsame⟩ :=
    ancestors_judged_alike contested_readFrom reworded_readFrom reworded_rewording
  refine ⟨contested_readFrom, reworded_readFrom, reworded_rewording, is', his', ?_⟩
  obtain rfl := Except.ok.inj (contested_readFrom.issues.symm.trans his)
  let previous := Line.directive .inclusion (place "/w/m/base") "A=1" 1 2
  let current := Line.directive .inclusion (place "/w/m/mid") "A=2" 2 1
  have hissue : Override.redefined contested.settings.root previous current ∈
      Override.issues contested.settings.root contested.directives := by
    rw [contested_directives]
    decide +kernel
  rw [← filter_override] at hissue
  have hmem : Override.redefined contested.settings.root previous current ∈
      is'.filter fun i => (i.kind = .redefinedWithoutExclusion ∨ i.kind = .unnecessaryRedefinition) ∧
        i.file ≠ .ofLocation contested.root := by
    rw [hsame]
    exact List.mem_filter.2 ⟨(List.mem_filter.1 hissue).1, by decide +kernel⟩
  exact ⟨_, (List.mem_filter.1 hmem).1, rfl, by decide +kernel⟩

end LayeredConfig.Hierarchy
