import LayeredConfig.Proofs.FileTree
import LayeredConfig.Proofs.Hierarchy.Containment
import LayeredConfig.Proofs.Hierarchy.Repetition

namespace LayeredConfig.Hierarchy

def files (h : Hierarchy) : List Location := h.root :: h.tree.files

structure Revision (h h' : Hierarchy) : Prop where
  settings : h'.settings = h.settings
  root : h'.root = h.root
  layout : h.tree.SameLayout h'.tree
  readable : ∀ file ∈ h.tree.files,
    (Import.readDocument h'.tree file).isOk = (Import.readDocument h.tree file).isOk

/-- The two documents come to the same, but for what is said about their imports. -/
structure SameOutcome (h h' : Hierarchy) (path : Path) (given given' : Option String) : Prop where
  directives : ∃ ds, Document.directives h.settings h.tree path given = .ok ds ∧
    Document.directives h'.settings h'.tree path given' = .ok ds
  config : ∃ c, Document.config h.settings h.tree path given = .ok c ∧
    Document.config h'.settings h'.tree path given' = .ok c
  issues : ∃ is is', Document.issues h.settings h.tree path given = .ok is ∧
    Document.issues h'.settings h'.tree path given' = .ok is' ∧
    is'.filter (fun i => i.kind ≠ .missingImport ∧ i.kind ≠ .cyclicImport) =
      is.filter fun i => i.kind ≠ .missingImport ∧ i.kind ≠ .cyclicImport

variable {h h' : Hierarchy} {path : Path} {given given' : Option String} {raw : String} {n : Nat}

theorem ReadFrom.sameOutcome (hr : h.ReadFrom path given) (hr' : h'.ReadFrom path given')
    (hsettings : h'.settings = h.settings) (hds : h'.directives = h.directives) :
    SameOutcome h h' path given given' := by
  refine ⟨⟨_, hr.directives, hds ▸ hr'.directives⟩, ⟨_, hr.config, hds ▸ hr'.config⟩,
    ⟨_, _, hr.issues, hr'.issues, ?_⟩⟩
  rw [filter_lineIssues, filter_lineIssues, lineIssues, lineIssues, hds, hsettings]

theorem isOk_readDocument_iff {t : FileTree} {file : Location} :
    (Import.readDocument t file).isOk ↔ ∃ text, Import.readDocument t file = .ok text := by
  cases Import.readDocument t file <;> simp [Except.isOk, Except.toBool]

theorem Revision.locate (hrev : Revision h h') (name : String) :
    Import.locate h'.settings h'.tree name = Import.locate h.settings h.tree name := by
  rw [hrev.settings, Import.locate_of_sameLayout hrev.layout]

theorem Revision.imports_iff (hrev : Revision h h') {v : Location} :
    h'.Imports raw v ↔ h.Imports raw v := by
  unfold Imports
  rw [hrev.locate, ← isOk_readDocument_iff, ← isOk_readDocument_iff]
  constructor
  · rintro ⟨hi, hv, hok⟩
    exact ⟨hi, hv, hrev.readable v (Import.mem_files_of_locate _ _ hv) ▸ hok⟩
  · rintro ⟨hi, hv, hok⟩
    exact ⟨hi, hv, (hrev.readable v (Import.mem_files_of_locate _ _ hv)).symm ▸ hok⟩

theorem IsPath.of_edges (hroot : h'.root = h.root)
    (hedges : ∀ u v, h.Reaches u → h.Edge u v → h'.Edge u v) {p : List Location} {u : Location}
    (hp : h.IsPath (p ++ [u])) : h'.IsPath (p ++ [u]) := by
  induction p using List.reverseRecOn generalizing u with
  | nil => exact isPath_singleton_iff.2 ((isPath_singleton_iff.1 hp).trans hroot.symm)
  | append_singleton p w ih =>
      obtain ⟨hp, he, hu⟩ := isPath_append_singleton_iff.1 hp
      exact isPath_append_singleton_iff.2 ⟨ih hp, hedges w u hp.reaches he, hu⟩

theorem pathLengths_subset (hroot : h'.root = h.root)
    (hedges : ∀ u v, h.Reaches u → h.Edge u v → h'.Edge u v) (file : Location) :
    h.pathLengths file ⊆ h'.pathLengths file := by
  intro k hk
  obtain ⟨p, hp, rfl⟩ := mem_pathLengths_iff.1 hk
  exact length_mem_pathLengths (hp.of_edges hroot hedges)

theorem directives_subset (hpolicy : h'.settings.commentPolicy = h.settings.commentPolicy)
    (hlines : ∀ file raw n, h.Reaches file → (raw, n) ∈ h.lines file → Line.IsContent raw →
      (raw, n) ∈ h'.lines file)
    (hdepths : ∀ file k, IsGreatest (h.pathLengths file) k → IsGreatest (h'.pathLengths file) k) :
    h.directives ⊆ h'.directives := by
  intro d hd
  obtain ⟨file, raw, n, k, hl, hc, hk, rfl⟩ := line_of_mem_directives hd
  exact mem_directives_iff.2 ⟨file, raw, n, k, hlines file raw n (reaches_of_isGreatest hk) hl hc, hc,
    hdepths file k hk, by rw [hpolicy]⟩

theorem directives_eq (hpolicy : h'.settings.commentPolicy = h.settings.commentPolicy)
    (hlines : ∀ file raw n, file ∈ h.files ∨ file ∈ h'.files → Line.IsContent raw →
      ((raw, n) ∈ h'.lines file ↔ (raw, n) ∈ h.lines file))
    (hdepths : ∀ file k, IsGreatest (h'.pathLengths file) k ↔ IsGreatest (h.pathLengths file) k) :
    h'.directives = h.directives := by
  refine Precedence.eq_order (Precedence.order_pairwise _) (Precedence.nodup_order _) fun d => ?_
  constructor
  · exact fun hd => directives_subset hpolicy.symm
      (fun file raw n hv hl hc => (hlines file raw n (.inr hv.mem_files) hc).1 hl)
      (fun file k => (hdepths file k).1) hd
  · exact fun hd => directives_subset hpolicy
      (fun file raw n hv hl hc => (hlines file raw n (.inl hv.mem_files) hc).2 hl)
      (fun file k => (hdepths file k).2) hd

theorem Revision.mem_files_iff (hrev : Revision h h') {file : Location} :
    file ∈ h'.files ↔ file ∈ h.files := by
  rw [files, files, List.mem_cons, List.mem_cons, hrev.root, hrev.layout.mem_files_iff]

end LayeredConfig.Hierarchy
