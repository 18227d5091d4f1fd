import LayeredConfig.Proofs.Diagnostic
import LayeredConfig.Proofs.Hierarchy.Redefinition

namespace LayeredConfig

namespace Hierarchy

variable {h : Hierarchy} {i : Issue}

theorem line_of_mem_lines {d : Directive} (hd : d ∈ h.directives) (hj : d.isJudged)
    (ha : i.anchor = d.anchor) (hkey : i.key = d.key) :
    ∃ file raw n, (raw, n) ∈ h.lines file ∧ i.anchor = (.ofLocation file, (n : Int)) ∧
      Text.trim raw ≠ "" ∧ LineKind.ofText h.settings.commentPolicy (Text.trim raw) ≠ .comment ∧
      i.key = Line.key (Text.trim raw) := by
  obtain ⟨file, raw, n, k, hl, hc, _, rfl⟩ := line_of_mem_directives hd
  refine ⟨file, raw, n, hl, ha, hc.1, ?_, ?_⟩
  · intro hk
    simp [Directive.isJudged, Line.directive_kind, hk] at hj
  · rw [hkey, Line.directive_key]

theorem line_of_mem_issues (hi : i ∈ h.issues) :
    ∃ file raw n, (raw, n) ∈ h.lines file ∧ i.anchor = (.ofLocation file, (n : Int)) ∧
      Text.trim raw ≠ "" ∧ LineKind.ofText h.settings.commentPolicy (Text.trim raw) ≠ .comment ∧
      i.key = Line.key (Text.trim raw) := by
  rw [issues_eq, List.mem_append, List.mem_append] at hi
  rcases hi with (hi | hi) | hi
  · obtain ⟨_, file, raw, n, _, hl, himport, problem, _, rfl⟩ := mem_stream_issues_iff.1 hi
    refine ⟨file, raw, n, hl, rfl, himport.trim_ne_empty, ?_, rfl⟩
    rw [LineKind.ofText_eq_importing_iff.2 himport]
    decide
  · obtain ⟨d, hd, hk, ha, hkey⟩ := Override.exists_of_mem hi
    exact line_of_mem_lines hd (by simp [Directive.isJudged, hk]) ha hkey
  · obtain ⟨d, hd, hj, ha, hkey⟩ := Duplicate.exists_of_mem hi
    exact line_of_mem_lines hd hj ha hkey

theorem shows (h : Hierarchy) : Shows (.ofLocation h.root) h.issues
    (Diagnostic.ofDocument h.settings.commentPolicy (.ofLocation h.root) h.content h.issues) := by
  apply Diagnostic.shows_ofDocument
  intro i hi hf
  obtain ⟨file, raw, n, hl, ha, hraw, hkind, hkey⟩ := line_of_mem_issues hi
  obtain ⟨hfile, hn⟩ := Prod.mk.inj ha
  obtain rfl := Path.ofLocation_inj.1 (hf.symm.trans hfile)
  obtain ⟨text, ht, hm⟩ := mem_lines_iff.1 hl
  rw [text?, if_pos rfl] at ht
  cases ht
  exact ⟨raw, n, hm, hn, hraw, hkind, hkey⟩

theorem not_shows {document : Location} {ds : List Diagnostic} {is : List Issue} (hi : i ∈ is)
    (hf : i.file = .ofLocation document) (hne : document ≠ h.root)
    (hds : Shows (.ofLocation h.root) h.issues ds) : ¬Shows (.ofLocation document) is ds := by
  intro hs
  obtain ⟨d, hd, _, hid⟩ := hs.shown i hi hf
  have hroot := (hds.only d hd i hid).2
  exact hne (Path.ofLocation_inj.1 (hf.symm.trans hroot))

theorem lines_of_twice (hcontent : h.content = "A\nA") : h.lines h.root = [("A", 1), ("A", 2)] := by
  rw [lines_root, hcontent]
  decide +kernel

theorem searched_of_twice (hcontent : h.content = "A\nA") : h.Searched := by
  have hnone : ∀ line ∈ h.lines h.root, ¬Line.IsImport line.1 := by
    rw [lines_of_twice hcontent]
    decide +kernel
  intro file hfile line hl hlong
  obtain rfl | ⟨_, hedge, _⟩ := Relation.ReflTransGen.cases_head hfile
  · exact hnone line hl hlong.1
  · obtain ⟨raw, n, hm, hi⟩ := hedge
    exact hnone (raw, n) hm hi.1

theorem exists_redefined_of_twice (hcontent : h.content = "A\nA") :
    ∃ i ∈ h.issues, i.file = .ofLocation h.root := by
  have hlines := lines_of_twice hcontent
  have hkind : LineKind.ofText h.settings.commentPolicy (Text.trim "A") = .inclusion := by
    cases h.settings.commentPolicy <;> decide +kernel
  have hsays : ∀ n, ("A", n) ∈ h.lines h.root → h.Says h.root n .inclusion (Line.key (Text.trim "A")) :=
    fun n hn => ⟨"A", hn, by decide +kernel, hkind, rfl⟩
  have hkept : ∀ m < 2, ¬h.Says h.root m .exclusion (Line.key (Text.trim "A")) := by
    rintro m _ ⟨raw, hl, _, hk, _⟩
    have hraw : raw = "A" := by
      rw [hlines] at hl
      simp only [List.mem_cons, Prod.mk.injEq, List.not_mem_nil, or_false] at hl
      exact hl.elim And.left And.left
    subst hraw
    exact absurd (hkind.symm.trans hk) (by decide)
  obtain ⟨i, hi, _, ha⟩ := (exists_redefined_iff 2).2
    ⟨_, hsays 2 (by simp [hlines]), .inr ⟨1, by decide, hsays 1 (by simp [hlines])⟩, hkept⟩
  exact ⟨i, hi, (Prod.mk.inj ha).1⟩

end Hierarchy

namespace Document

variable {s : Settings} {t : FileTree} {path : Path} {version : Int} {given : Option String}

theorem locate_eq_ok_iff {document : Location} :
    locate t path = .ok document ↔ t.canonical path = .ok document := by
  unfold locate
  cases t.canonical path <;> simp [Except.mapError]

theorem bind_eq_ok_iff {ε α β : Type} {x : Except ε α} {f : α → Except ε β} {b : β} :
    (x >>= f) = .ok b ↔ ∃ a, x = .ok a ∧ f a = .ok b := by
  cases x <;> simp [bind, Except.bind]

theorem issues_eq_ok_iff {is : List Issue} : issues s t path given = .ok is ↔
    ∃ document content, t.canonical path = .ok document ∧ text t document given = .ok content ∧
      Hierarchy.Searched ⟨s, t, document, content⟩ ∧ is = Hierarchy.issues ⟨s, t, document, content⟩ := by
  simp only [issues_eq_bind, hierarchy, bind_eq_ok_iff, locate_eq_ok_iff, pure, Except.pure, Except.ok.injEq,
    Hierarchy.settle_eq_ok_iff]
  constructor
  · rintro ⟨_, ⟨document, hd, content, ht, rfl⟩, hs, rfl⟩
    exact ⟨document, content, hd, ht, hs, rfl⟩
  · rintro ⟨document, content, hd, ht, hs, rfl⟩
    exact ⟨_, ⟨document, hd, content, ht, rfl⟩, hs, rfl⟩

theorem check_eq_ok_iff {p : Publication} : check s t path version given = .ok p ↔
    ∃ document content shown, t.canonical path = .ok document ∧ text t document given = .ok content ∧
      t.canonical (.ofLocation document) = .ok shown ∧ Hierarchy.Searched ⟨s, t, shown, content⟩ ∧
      p = ⟨document, version, Diagnostic.ofDocument s.commentPolicy (.ofLocation shown) content
        (Hierarchy.issues ⟨s, t, shown, content⟩)⟩ := by
  simp only [check, diagnostics, bind_eq_ok_iff, locate_eq_ok_iff, issues_eq_ok_iff, pure, Except.pure,
    Except.ok.injEq]
  constructor
  · rintro ⟨document, hd, content, ht, _, ⟨shown, _, hs, hc, hsearched, rfl⟩, _, ⟨shown', hs', rfl⟩, rfl⟩
    cases hc
    obtain rfl := Except.ok.inj (hs.symm.trans hs')
    exact ⟨document, content, shown, hd, ht, hs, hsearched, rfl⟩
  · rintro ⟨document, content, shown, hd, ht, hs, hsearched, rfl⟩
    exact ⟨document, hd, content, ht, _, ⟨shown, content, hs, rfl, hsearched, rfl⟩, _, ⟨shown, hs, rfl⟩, rfl⟩

/-- What is shown is what the analysis finds exactly if the canonical path of the document is its own:
then none of its issues is lost. Otherwise the issues of the file that the path leads to are shown. -/
theorem check_shows_issues_iff (s : Settings) (t : FileTree) (path : Path) :
    ((∀ version given p, check s t path version given = .ok p →
        ∃ is, issues s t path given = .ok is ∧ Shows (.ofLocation p.document) is p.diagnostics) ↔
      ∀ document shown, t.canonical path = .ok document → t.canonical (.ofLocation document) = .ok shown →
        shown = document) ∧
    ∀ version given p, check s t path version given = .ok p →
      ∃ content shown is, text t p.document given = .ok content ∧
        t.canonical (.ofLocation p.document) = .ok shown ∧
        issues s t (.ofLocation p.document) (some content) = .ok is ∧
        Shows (.ofLocation shown) is p.diagnostics := by
  refine ⟨⟨?_, ?_⟩, ?_⟩
  · intro hall document shown hd hs
    by_contra hne
    have hc : check s t path 0 (some "A\nA") = .ok _ :=
      check_eq_ok_iff.2 ⟨document, "A\nA", shown, hd, rfl, hs, Hierarchy.searched_of_twice rfl, rfl⟩
    obtain ⟨is, his, hshows⟩ := hall _ _ _ hc
    obtain ⟨document', content, hd', ht, _, rfl⟩ := issues_eq_ok_iff.1 his
    obtain rfl := Except.ok.inj (hd.symm.trans hd')
    obtain rfl := Except.ok.inj ht
    obtain ⟨i, hi, hf⟩ := Hierarchy.exists_redefined_of_twice (h := ⟨s, t, document, "A\nA"⟩) rfl
    exact Hierarchy.not_shows hi hf (Ne.symm hne) (Hierarchy.shows ⟨s, t, shown, "A\nA"⟩) hshows
  · intro hsame version given p hc
    obtain ⟨document, content, shown, hd, ht, hs, hsearched, rfl⟩ := check_eq_ok_iff.1 hc
    obtain rfl := hsame document shown hd hs
    exact ⟨_, issues_eq_ok_iff.2 ⟨_, content, hd, ht, hsearched, rfl⟩, Hierarchy.shows ⟨s, t, _, content⟩⟩
  · intro version given p hc
    obtain ⟨document, content, shown, hd, ht, hs, hsearched, rfl⟩ := check_eq_ok_iff.1 hc
    refine ⟨content, shown, _, ht, hs, issues_eq_ok_iff.2 ⟨shown, content, hs, rfl, hsearched, rfl⟩, ?_⟩
    exact Hierarchy.shows ⟨s, t, shown, content⟩

/-- The path of the document goes by way of a link to itself and ends at the link `x`, which is not
followed; from there it would be followed to `y`. -/
def astray : Hierarchy where
  settings := ⟨.ofString "/w", .ofString "/w", "x", .inclusion⟩
  tree := {
    here := Hierarchy.place "/w"
    entries := [
      (Hierarchy.place "/w", .directory), (Hierarchy.place "/w/loop", .link (.ofString "loop")),
      (Hierarchy.place "/w/x", .link (.ofString "y")),
      (Hierarchy.place "/w/y", .file "A=1".toUTF8.data.toList)]
    nodup := by decide +kernel }
  root := Hierarchy.place "/w/x"
  content := "!y\nA=2"

theorem astray_readFrom : astray.ReadFrom (.ofString "loop/../x") (some "!y\nA=2") :=
  Hierarchy.FoundAt.readFrom ⟨by decide +kernel, by decide +kernel⟩ (by decide +kernel)

/-- That the document gives `A` another value than `y` is not shown. -/
theorem astray_check_loses_issue :
    ∃ p is, check astray.settings astray.tree (.ofString "loop/../x") 1 (some "!y\nA=2") = .ok p ∧
      issues astray.settings astray.tree (.ofString "loop/../x") (some "!y\nA=2") = .ok is ∧
      ¬Shows (.ofLocation p.document) is p.diagnostics := by
  have hd : astray.tree.canonical (.ofString "loop/../x") = .ok (Hierarchy.place "/w/x") := by decide +kernel
  have hs : astray.tree.canonical (.ofLocation (Hierarchy.place "/w/x")) = .ok (Hierarchy.place "/w/y") := by
    decide +kernel
  have hsearched : Hierarchy.Searched ⟨astray.settings, astray.tree, Hierarchy.place "/w/y", "!y\nA=2"⟩ :=
    .of_files (by decide +kernel)
  refine ⟨_, astray.issues, check_eq_ok_iff.2 ⟨_, _, _, hd, rfl, hs, hsearched, rfl⟩,
    astray_readFrom.issues, ?_⟩
  have hl : ("!y", 1) ∈ astray.lines astray.root := by decide +kernel
  have hreaches : astray.Reaches (Hierarchy.place "/w/y") :=
    .tail .refl ⟨"!y", 1, hl, by decide +kernel⟩
  have hkept : ∀ m < 2, ¬astray.Says astray.root m .exclusion "A" := by
    rintro m _ ⟨raw, hl, hs⟩
    have hall : ∀ line ∈ astray.lines astray.root,
        LineKind.ofText .inclusion (Text.trim line.1) ≠ .exclusion := by decide +kernel
    exact hall _ hl hs.2.1
  obtain ⟨i, hi, _, ha⟩ := (Hierarchy.exists_redefined_iff 2).2
    ⟨"A", ⟨"A=2", by decide +kernel⟩,
      .inl ⟨Hierarchy.place "/w/y", 1, by decide +kernel, hreaches, "A=1", by decide +kernel⟩, hkept⟩
  exact Hierarchy.not_shows hi (Prod.mk.inj ha).1 (by decide +kernel)
    (Hierarchy.shows ⟨astray.settings, astray.tree, Hierarchy.place "/w/y", "!y\nA=2"⟩)

end Document

end LayeredConfig
