import LayeredConfig.Proofs.Hierarchy.Cycles
import LayeredConfig.Proofs.Hierarchy.Revision

namespace LayeredConfig

theorem Import.nameOfLine_importLine (name : String) :
    nameOfLine (Text.trim ("!" ++ name)) = Text.trim name := by
  have hmark : Text.isBlank '!' = false := by decide
  have htrim : Text.trimChars ('!' :: name.toList) =
      '!' :: Text.dropEndWhile Text.isBlank name.toList := by
    rw [Text.trimChars, List.dropWhile_cons_of_neg (by simp [hmark]), Text.dropEndWhile_cons,
      if_neg (by simp [hmark])]
  have hline : ("!" ++ name).toList = '!' :: name.toList := by simp
  rw [nameOfLine, Text.toList_trim, hline, htrim, List.drop_one, List.tail_cons, Text.trim,
    String.toList_ofList, Text.trimChars_dropEndWhile, Text.trim]

theorem Import.locate_trim (s : Settings) (t : FileTree) (name : String) :
    locate s t (Text.trim name) = locate s t name := by
  simp only [locate, Text.trim_trim]

theorem Line.isImport_importLine (name : String) : IsImport ("!" ++ name) := by
  have hmark : Text.isBlank '!' = false := by decide
  have hline : ("!" ++ name).toList = '!' :: name.toList := by simp
  rw [IsImport, Text.toList_trim, hline, Text.trimChars, List.dropWhile_cons_of_neg (by simp [hmark]),
    Text.dropEndWhile_cons, if_neg (by simp [hmark]), List.head?_cons]

namespace Hierarchy

/-- The document has one line more, at its end. A last line without text may make room for it. -/
structure Extension (h h' : Hierarchy) (line : String) : Prop extends Revision h h' where
  elsewhere : ∀ file ∈ h.tree.files, file ≠ h.root → h'.lines file = h.lines file
  content : h'.content = h.content ++ "\n" ++ line ∨
    ∃ text, h.content = text ++ "\n" ∧ h'.content = text ++ "\n" ++ line

variable {h h' : Hierarchy} {file u v : Location} {raw line : String} {n k : Nat} {p : List Location}

theorem Extension.mem_lines_root (hx : Extension h h' line) (hline : '\n' ∉ line.toList) :
    ∃ m, ∀ raw n, Text.trim raw ≠ "" →
      ((raw, n) ∈ h'.lines h.root ↔ (raw, n) ∈ h.lines h.root ∨ (raw, n) = (line, m)) := by
  rw [← hx.root, lines_root, hx.root, lines_root]
  rcases hx.content with hc | ⟨text, hc, hc'⟩
  · refine ⟨1 + (Text.lines h.content).length, fun raw n _ => ?_⟩
    rw [hc, Text.lines_append_newline, Text.lines_of_notMem hline, List.zipIdx_append, List.mem_append,
      List.zipIdx_singleton, List.mem_singleton]
  · refine ⟨1 + (Text.lines text).length, fun raw n hraw => ?_⟩
    have hlast : (raw, n) ≠ ("", 1 + (Text.lines text).length) := by
      intro he
      exact hraw (by rw [(Prod.mk.inj he).1]; decide)
    have hempty : h.content = text ++ "\n" ++ "" := by rw [hc, String.append_empty]
    have hblank : Text.lines "" = [""] := Text.lines_of_notMem (by simp)
    rw [hc', hempty, Text.lines_append_newline, Text.lines_append_newline, Text.lines_of_notMem hline,
      hblank, List.zipIdx_append, List.zipIdx_append, List.mem_append,
      List.mem_append, List.zipIdx_singleton, List.zipIdx_singleton, List.mem_singleton,
      List.mem_singleton, or_iff_left hlast]

theorem Extension.mem_lines_iff (hx : Extension h h' line) (hline : '\n' ∉ line.toList)
    (himport : Line.IsImport line) (hfile : file ∈ h.files) (hc : Line.IsContent raw) :
    (raw, n) ∈ h'.lines file ↔ (raw, n) ∈ h.lines file := by
  by_cases hroot : file = h.root
  · obtain ⟨m, hm⟩ := hx.mem_lines_root hline
    have hne : (raw, n) ≠ (line, m) := fun he => hc.2 ((Prod.mk.inj he).1 ▸ himport)
    rw [hroot, hm raw n hc.1, or_iff_left hne]
  · rw [hx.elsewhere file ((List.mem_cons.1 hfile).resolve_left hroot) hroot]

theorem Extension.edge_iff (hx : Extension h h' line) (hline : '\n' ∉ line.toList) (hu : u ∈ h.files) :
    h'.Edge u v ↔ h.Edge u v ∨ u = h.root ∧ h.Imports line v := by
  by_cases hroot : u = h.root
  · obtain ⟨m, hm⟩ := hx.mem_lines_root hline
    subst hroot
    constructor
    · rintro ⟨raw, n, hl, hi⟩
      rcases (hm raw n hi.1.trim_ne_empty).1 hl with hl | he
      · exact .inl ⟨raw, n, hl, hx.imports_iff.1 hi⟩
      · obtain ⟨rfl, rfl⟩ := Prod.mk.inj he
        exact .inr ⟨rfl, hx.imports_iff.1 hi⟩
    · rintro (⟨raw, n, hl, hi⟩ | ⟨_, hi⟩)
      · exact ⟨raw, n, (hm raw n hi.1.trim_ne_empty).2 (.inl hl), hx.imports_iff.2 hi⟩
      · exact ⟨line, m, (hm line m hi.1.trim_ne_empty).2 (.inr rfl), hx.imports_iff.2 hi⟩
  · have hlines := hx.elsewhere u ((List.mem_cons.1 hu).resolve_left hroot) hroot
    simp only [Edge, hlines, hx.imports_iff, hroot, false_and, or_false]

/-- No import is reported as cyclic. -/
def Acyclic (h : Hierarchy) : Prop := ∀ i ∈ h.stream.issues, i.kind ≠ .cyclicImport

theorem Acyclic.not_isCycle {c : List Location} (ha : h.Acyclic) (hv : h.Reaches v) : ¬h.IsCycle v c := by
  intro hc
  obtain ⟨q, w, c', _, hc', hp, hw⟩ := hc.exists_isPath hv
  obtain ⟨i, hi, hk, _⟩ := hp.exists_cyclic_issue hw hc'
  exact ha i hi hk

theorem IsPath.rank_le {rank : Location → Nat}
    (hrank : ∀ u v, h.Reaches u → h.Edge u v → rank u < rank v) (hp : h.IsPath (p ++ [u]))
    (hv : v ∈ p ++ [u]) : rank v ≤ rank u := by
  induction p using List.reverseRecOn generalizing u with
  | nil =>
      obtain rfl : v = u := by simpa using hv
      exact le_rfl
  | append_singleton p w ih =>
      obtain ⟨hp, he, _⟩ := isPath_append_singleton_iff.1 hp
      rcases List.mem_append.1 hv with hv | hv
      · exact (ih hp hv).trans (hrank w u hp.reaches he).le
      · obtain rfl : v = u := by simpa using hv
        exact le_rfl

theorem Acyclic.of_rank (rank : Location → Nat)
    (hrank : ∀ u v, h.Reaches u → h.Edge u v → rank u < rank v) : h.Acyclic := by
  intro i hi hk
  obtain ⟨q, c, u, raw, n, v, hp, _, hv, hu, hl, himports, _⟩ := mem_cyclic_issues_iff.1 ⟨hi, hk⟩
  obtain ⟨c, rfl⟩ := List.getLast?_eq_some_iff.1 hu
  have hmem : v ∈ q ++ c ++ [u] := by
    rw [List.append_assoc]
    exact List.mem_append_right q (List.mem_of_mem_head? hv)
  rw [← List.append_assoc] at hp
  exact (hp.rank_le hrank hmem).not_gt (hrank u v hp.reaches ⟨raw, n, hl, himports⟩)

theorem Acyclic.isPath_append_singleton (ha : h.Acyclic) (hp : h.IsPath (p ++ [u])) (he : h.Edge u v) :
    h.IsPath (p ++ [u] ++ [v]) := by
  refine isPath_append_singleton_iff.2 ⟨hp, he, fun hv => ?_⟩
  obtain ⟨a, b, hab⟩ := List.append_of_mem hv
  have hlast : (v :: b).getLast? = some u := by
    have hlast : (p ++ [u]).getLast? = some u := List.getLast?_concat
    rwa [hab, List.getLast?_append_of_ne_nil _ (by simp)] at hlast
  exact ha.not_isCycle (hp.reaches_of_mem hv) ((hab ▸ hp).isCycle rfl hlast he)

theorem Acyclic.exists_isPath_of_transGen (ha : h.Acyclic) (hv : Relation.TransGen h.Edge h.root v) :
    ∃ p, p ≠ [] ∧ h.IsPath (p ++ [v]) := by
  obtain ⟨u, hu, he⟩ := Relation.TransGen.tail'_iff.1 hv
  obtain ⟨p, hp⟩ := Reaches.exists_isPath hu
  exact ⟨p ++ [u], by simp, ha.isPath_append_singleton hp he⟩

theorem isGreatest_iff_of_subset {s t : Set Nat} (hsub : s ⊆ t) (hle : ∀ x ∈ t, ∃ y ∈ s, x ≤ y) :
    IsGreatest t k ↔ IsGreatest s k := by
  constructor
  · rintro ⟨hk, hmax⟩
    obtain ⟨y, hy, hky⟩ := hle k hk
    obtain rfl : k = y := hky.antisymm (hmax (hsub hy))
    exact ⟨hy, fun x hx => hmax (hsub hx)⟩
  · rintro ⟨hk, hmax⟩
    refine ⟨hsub hk, fun x hx => ?_⟩
    obtain ⟨y, hy, hxy⟩ := hle x hx
    exact hxy.trans (hmax hy)

section

variable (hx : Extension h h' line) (hline : '\n' ∉ line.toList) (hv : h.Imports line v)
  (himported : Relation.TransGen h.Edge h.root v) (ha : h.Acyclic)

include hx hline hv himported ha

/-- Every way that takes the new import is matched by one at least as long that does without. -/
theorem Extension.exists_isPath (hp : h'.IsPath (p ++ [u])) :
    ∃ q, h.IsPath (q ++ [u]) ∧ p.length ≤ q.length := by
  induction p using List.reverseRecOn generalizing u with
  | nil => exact ⟨[], isPath_singleton_iff.2 ((isPath_singleton_iff.1 hp).trans hx.root), le_rfl⟩
  | append_singleton p w ih =>
      obtain ⟨hp, he, _⟩ := isPath_append_singleton_iff.1 hp
      obtain ⟨q, hq, hle⟩ := ih hp
      rcases (hx.edge_iff hline hq.reaches.mem_files).1 he with he | ⟨rfl, hu⟩
      · refine ⟨q ++ [w], ha.isPath_append_singleton hq he, ?_⟩
        simpa using hle
      · obtain rfl : v = u := Option.some.inj (Except.ok.inj (hv.2.1.symm.trans hu.2.1))
        obtain ⟨r, hr, hpath⟩ := ha.exists_isPath_of_transGen himported
        -- The new import stands in the document, to which no way leads back.
        obtain rfl : p = [] := IsPath.eq_nil_of_root (by rwa [hx.root])
        exact ⟨r, hpath, List.length_pos_of_ne_nil hr⟩

theorem Extension.isGreatest_pathLengths_iff :
    IsGreatest (h'.pathLengths file) k ↔ IsGreatest (h.pathLengths file) k := by
  apply isGreatest_iff_of_subset
  · exact pathLengths_subset hx.root (fun u w hu he => (hx.edge_iff hline hu.mem_files).2 (.inl he)) file
  · intro m hm
    obtain ⟨p, hp, rfl⟩ := mem_pathLengths_iff.1 hm
    obtain ⟨q, hq, hle⟩ := hx.exists_isPath hline hv himported ha hp
    exact ⟨q.length, length_mem_pathLengths hq, hle⟩

theorem Extension.directives : h'.directives = h.directives := by
  apply directives_eq
  · rw [hx.settings]
  · intro file raw n hfile hc
    rw [hx.mem_files_iff, or_self] at hfile
    exact hx.mem_lines_iff hline hv.1 hfile hc
  · intro file k
    exact hx.isGreatest_pathLengths_iff hline hv himported ha

end

/-- To import once more, at the end of the document, what it imports anyway changes nothing, unless
imports lead back. -/
theorem redundant_import_harmless {path : Path} {given given' : Option String} {name : String}
    (hr : h.ReadFrom path given) (hr' : h'.ReadFrom path given') (ha : h.Acyclic)
    (hname : '\n' ∉ name.toList) (hlocate : Import.locate h.settings h.tree name = .ok (some v))
    (himported : Relation.TransGen h.Edge h.root v) (hx : Extension h h' ("!" ++ name)) :
    SameOutcome h h' path given given' := by
  obtain ⟨_, _, _, _, _, _, _, hread⟩ := Relation.TransGen.tail'_iff.1 himported
  have hv : h.Imports ("!" ++ name) v := by
    refine ⟨Line.isImport_importLine name, ?_, hread⟩
    rw [Import.nameOfLine_importLine, Import.locate_trim, hlocate]
  have hline : '\n' ∉ ("!" ++ name).toList := by simpa using hname
  exact hr.sameOutcome hr' hx.settings (hx.directives hline hv himported ha)

/-- The document imports `base` itself, after all that it says about `mid`. -/
def shortcut : Hierarchy := { layered with content := layered.content ++ "\n" ++ "!base" }

theorem shortcut_readFrom : shortcut.ReadFrom (.ofString "d") (some shortcut.content) :=
  FoundAt.readFrom ⟨by decide +kernel, rfl⟩ (by decide +kernel)

theorem shortcut_extension : Extension layered shortcut ("!" ++ "base") where
  settings := rfl
  root := rfl
  layout := ⟨rfl, .refl _⟩
  readable := fun _ _ => rfl
  elsewhere := by decide +kernel
  content := .inl rfl

theorem layered_acyclic : layered.Acyclic := by
  refine .of_rank (["/w/d", "/w/m/mid", "/w/m/base"].map place).idxOf fun u v hu ⟨raw, n, hl, hi⟩ => ?_
  have hrank : ∀ u ∈ ["/w/d", "/w/m/mid", "/w/m/base"].map place, ∀ line ∈ layered.lines u,
      ∀ v ∈ layered.tree.files, layered.Imports line.1 v →
        (["/w/d", "/w/m/mid", "/w/m/base"].map place).idxOf u <
          (["/w/d", "/w/m/mid", "/w/m/base"].map place).idxOf v := by
    decide +kernel
  exact hrank u (layered_reaches hu) (raw, n) hl v hi.mem_files hi

/-- `base` is imported by `mid` as well, and remains two imports away. -/
theorem shortcut_redundant_import_harmless :
    layered.ReadFrom (.ofString "d") none ∧ shortcut.ReadFrom (.ofString "d") (some shortcut.content) ∧
      layered.Acyclic ∧ Extension layered shortcut ("!" ++ "base") ∧
      SameOutcome layered shortcut (.ofString "d") none (some shortcut.content) := by
  have himported : Relation.TransGen layered.Edge layered.root (place "/w/m/base") := by
    refine .tail (b := place "/w/m/mid") (.single ⟨"!mid", 1, ?_⟩) ⟨"!base", 1, ?_⟩
    · decide +kernel
    · decide +kernel
  have hname : '\n' ∉ "base".toList := by decide
  have hlocate : Import.locate layered.settings layered.tree "base" = .ok (some (place "/w/m/base")) := by
    decide +kernel
  exact ⟨layered_readFrom, shortcut_readFrom, layered_acyclic, shortcut_extension,
    redundant_import_harmless layered_readFrom shortcut_readFrom layered_acyclic hname hlocate himported
      shortcut_extension⟩

end Hierarchy

end LayeredConfig
