import LayeredConfig.Proofs.Hierarchy.Revision

namespace LayeredConfig.Hierarchy

/-- The import lines of each file change places among themselves, and all other lines stay. -/
structure Reordering (h h' : Hierarchy) : Prop extends Revision h h' where
  lines : ∀ file ∈ h.files, ((h'.lines file).map Prod.fst).Perm ((h.lines file).map Prod.fst)
  others : ∀ file ∈ h.files, (h'.lines file).filter (fun line => ¬Line.IsImport line.1) =
    (h.lines file).filter fun line => ¬Line.IsImport line.1

variable {h h' : Hierarchy} {file u v : Location} {raw : String} {n : Nat}

theorem Reordering.mem_lines_iff (ho : Reordering h h') (hfile : file ∈ h.files) (hc : Line.IsContent raw) :
    (raw, n) ∈ h'.lines file ↔ (raw, n) ∈ h.lines file := by
  have hothers : (raw, n) ∈ (h'.lines file).filter (fun line => ¬Line.IsImport line.1) ↔
      (raw, n) ∈ (h.lines file).filter fun line => ¬Line.IsImport line.1 := by
    rw [ho.others file hfile]
  simpa only [List.mem_filter, decide_not, Bool.not_eq_true', decide_eq_false_iff_not, hc.2,
    not_false_eq_true, and_true] using hothers

theorem Reordering.edge_iff (ho : Reordering h h') (hu : u ∈ h.files) : h'.Edge u v ↔ h.Edge u v := by
  have hraw : ∀ raw, (∃ n, (raw, n) ∈ h'.lines u) ↔ ∃ n, (raw, n) ∈ h.lines u := by
    intro raw
    simpa only [List.mem_map, Prod.exists, exists_eq_right_right, exists_and_right, exists_eq_right] using
      (ho.lines u hu).mem_iff (a := raw)
  constructor
  · rintro ⟨raw, n, hl, hi⟩
    obtain ⟨m, hm⟩ := (hraw raw).1 ⟨n, hl⟩
    exact ⟨raw, m, hm, ho.imports_iff.1 hi⟩
  · rintro ⟨raw, n, hl, hi⟩
    obtain ⟨m, hm⟩ := (hraw raw).2 ⟨n, hl⟩
    exact ⟨raw, m, hm, ho.imports_iff.2 hi⟩

theorem Reordering.pathLengths (ho : Reordering h h') (file : Location) :
    h'.pathLengths file = h.pathLengths file := by
  apply Set.Subset.antisymm
  · refine pathLengths_subset ho.root.symm (fun u v hu => ?_) file
    exact (ho.edge_iff (ho.mem_files_iff.1 hu.mem_files)).1
  · exact pathLengths_subset ho.root (fun u v hu => (ho.edge_iff hu.mem_files).2) file

theorem Reordering.directives (ho : Reordering h h') : h'.directives = h.directives := by
  apply directives_eq
  · rw [ho.settings]
  · intro file raw n hfile hc
    rw [ho.mem_files_iff, or_self] at hfile
    exact ho.mem_lines_iff hfile hc
  · intro file k
    rw [ho.pathLengths]

/-- In whatever order files list their imports, the outcome is the same. -/
theorem import_order_irrelevant {path : Path} {given given' : Option String} (hr : h.ReadFrom path given)
    (hr' : h'.ReadFrom path given') (ho : Reordering h h') : SameOutcome h h' path given given' :=
  hr.sameOutcome hr' ho.settings ho.directives

/-- The document and `b` list their imports the other way round. -/
def recrossing : Hierarchy where
  settings := crossing.settings
  tree := {
    here := place "/w"
    entries := [
      (place "/w", .directory), (place "/w/m", .directory),
      (place "/w/d", .file "!c\n!a\nD".toUTF8.data.toList),
      (place "/w/m/a", .file "A\n!b".toUTF8.data.toList),
      (place "/w/m/b", .file "!a\n!c".toUTF8.data.toList),
      (place "/w/m/c", .file "C=1".toUTF8.data.toList)]
    nodup := by decide +kernel }
  root := place "/w/d"
  content := "!c\n!a\nD"

theorem recrossing_readFrom : recrossing.ReadFrom (.ofString "d") none :=
  FoundAt.readFrom ⟨by decide +kernel, by decide +kernel⟩ (by decide +kernel)

theorem recrossing_reordering : Reordering crossing recrossing where
  settings := rfl
  root := rfl
  layout := ⟨rfl, by decide +kernel⟩
  readable := by decide +kernel
  lines := by decide +kernel
  others := by decide +kernel

theorem recrossing_import_order_irrelevant : Reordering crossing recrossing ∧
    crossing.ReadFrom (.ofString "d") none ∧ recrossing.ReadFrom (.ofString "d") none ∧
    SameOutcome crossing recrossing (.ofString "d") none none :=
  ⟨recrossing_reordering, crossing_readFrom, recrossing_readFrom,
    import_order_irrelevant crossing_readFrom recrossing_readFrom recrossing_reordering⟩

end LayeredConfig.Hierarchy
