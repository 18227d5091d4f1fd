import LayeredConfig.Proofs.Effective
import LayeredConfig.Proofs.Hierarchy.Rewriting

namespace LayeredConfig

namespace Line

def IsComment (raw : String) : Prop := (Text.trim raw).toList.head? = some '#'

def Uncomments (raw raw' : String) : Prop := raw' = raw ∨ IsComment raw ∧ Text.trim raw' = ""

instance (raw : String) : Decidable (IsComment raw) := inferInstanceAs (Decidable (_ = _))

instance (raw raw' : String) : Decidable (Uncomments raw raw') := inferInstanceAs (Decidable (_ ∨ _))

variable {raw raw' : String}

theorem IsComment.kind (h : IsComment raw) : LineKind.ofText .comment (Text.trim raw) = .comment := by
  obtain ⟨cs, hcs⟩ := List.head?_eq_some_iff.1 h
  rw [LineKind.ofText, hcs]
  rfl

theorem IsComment.isContent (h : IsComment raw) : IsContent raw := by
  refine ⟨fun hblank => ?_, fun hi => ?_⟩
  · simp [IsComment, hblank] at h
  · exact absurd (hi.symm.trans h) (by decide)

end Line

namespace Text

def Uncomments (text text' : String) : Prop := List.Forall₂ Line.Uncomments (lines text) (lines text')

instance (text text' : String) : Decidable (Uncomments text text') :=
  inferInstanceAs (Decidable (List.Forall₂ _ _ _))

end Text

/-- Comments are left blank in the files of a tree, and what is not text fails as before. -/
structure FileTree.Uncomments (t t' : FileTree) : Prop where
  layout : t.SameLayout t'
  files : ∀ l bytes bytes', t.find? l = some (.file bytes) → t'.find? l = some (.file bytes') →
    Concur Text.Uncomments (FileTree.textOfBytes bytes) (FileTree.textOfBytes bytes')

def Item.counts : Item → Bool
  | .directive d => d.isJudged
  | .issue _ => true
  | .failure _ => true

variable {s : Settings} {t t' : FileTree} {given given' : Option String}

def Node.uncomments : Node → Node → Bool
  | .file bytes, .file bytes' =>
      Concur Text.Uncomments (FileTree.textOfBytes bytes) (FileTree.textOfBytes bytes')
  | _, _ => true

namespace FileTree.Uncomments

theorem of_entries (hl : SameLayout t t')
    (h : ∀ e ∈ t.entries, ∀ e' ∈ t'.entries, e.1 = e'.1 → Node.uncomments e.2 e'.2) : t.Uncomments t' := by
  refine ⟨hl, ?_⟩
  intro l bytes bytes' hb hb'
  have hne : l ≠ [] := by
    rintro rfl
    cases hb
  have he := h _ ((find?_eq_some_iff hne).1 hb) _ ((find?_eq_some_iff hne).1 hb') rfl
  exact of_decide_eq_true he

variable (h : t.Uncomments t')

include h

theorem rewrites : t.Rewrites Line.Uncomments t' := ⟨h.layout, h.files⟩

theorem simulation (hpolicy : s.commentPolicy = .comment) :
    Simulation s t s t' (fun xs xs' => xs.filter Item.counts = xs'.filter Item.counts)
      (Visit.Rewrites Line.Uncomments) := by
  refine h.rewrites.simulation (fun _ => rfl) ?_ ?_
  · intro xs xs' ys ys' hxs hys
    rw [List.filter_append, List.filter_append, hxs, hys]
  · intro v v' raw raw' _ hr
    obtain rfl | ⟨hcomment, hblank⟩ := hr
    · exact .inl rfl
    · refine .inr fun n => ?_
      simp only [Visit.reading]
      rw [Stream.readLine_of_isContent hcomment.isContent, Stream.readLine_of_blank hblank]
      refine .items ?_
      simp [Item.counts, Directive.isJudged, hpolicy, hcomment.kind]

end FileTree.Uncomments

theorem Item.findSome?_failure?_counts (xs : List Item) :
    (xs.filter counts).findSome? failure? = xs.findSome? failure? := by
  induction xs with
  | nil => rfl
  | cons x xs ih =>
      rw [List.filter_cons]
      cases x with
      | directive d => by_cases hd : d.isJudged <;> simp [counts, failure?, List.findSome?_cons, hd, ih]
      | issue => exact ih
      | failure => rfl

def Stream.judged (st : Stream) : Stream := { st with directives := st.directives.filter (·.isJudged) }

theorem Stream.judged_ofItems (root : Location) (xs : List Item) :
    (ofItems root xs).judged = ofItems root (xs.filter Item.counts) := by
  have hissues : xs.filterMap Item.issue? = (xs.filter Item.counts).filterMap Item.issue? := by
    rw [List.filterMap_filter]
    congr 1
    funext x
    cases x with
    | directive d => by_cases hd : d.isJudged <;> simp [Item.issue?]
    | issue | failure => rfl
  have hdirectives : (xs.filterMap Item.directive?).filter (·.isJudged) =
      (xs.filter Item.counts).filterMap Item.directive? := by
    rw [List.filterMap_filter, List.filter_filterMap]
    congr 1
    funext x
    cases x with
    | directive d => by_cases hd : d.isJudged <;> simp [Item.directive?, Item.counts, hd]
    | issue | failure => rfl
  rw [judged, ofItems, ofItems, hissues, hdirectives]

theorem FileTree.Uncomments.stream_judged (h : t.Uncomments t') (hpolicy : s.commentPolicy = .comment)
    {content content' : String} (hc : Text.Uncomments content content') (root : Location) :
    (Stream.ofText s t' root content').judged = (Stream.ofText s t root content).judged ∧
      Stream.failure? s t' root content' = Stream.failure? s t root content := by
  have hv : Visit.Rewrites Line.Uncomments ⟨[], root, content⟩ ⟨[], root, content'⟩ := ⟨rfl, rfl, hc⟩
  have hitems : (Stream.items s t root content).filter Item.counts =
      (Stream.items s t' root content').filter Item.counts := (h.simulation hpolicy).items hv
  rw [Stream.ofText, Stream.ofText, Stream.judged_ofItems, Stream.judged_ofItems, Stream.failure?,
    Stream.failure?, ← Item.findSome?_failure?_counts, ← Item.findSome?_failure?_counts (Stream.items s t _ _),
    hitems]
  exact ⟨rfl, rfl⟩

namespace Hierarchy

theorem filter_directives (h : Hierarchy) :
    h.directives.filter (·.isJudged) = Precedence.order h.stream.judged.directives := by
  refine (Precedence.order_filter fun d hd e he ha => ?_).symm
  obtain ⟨_, file, raw, n, _, hl, _, rfl⟩ := mem_stream_directives_iff.1 hd
  obtain ⟨_, file', raw', n', _, hl', _, rfl⟩ := mem_stream_directives_iff.1 he
  obtain ⟨hf, hn⟩ := Prod.mk.inj ha
  obtain rfl := Path.ofLocation_inj.1 hf
  obtain rfl : n = n' := Int.ofNat.inj hn
  obtain rfl := lines_inj hl hl'
  rfl

theorem issues_eq_judge (h : Hierarchy) : h.issues = Document.judge h.settings.root h.stream.judged := by
  have hjudge : Document.judge h.settings.root h.stream.judged =
      h.stream.issues ++ Override.issues h.settings.root (h.directives.filter (·.isJudged)) ++
        Duplicate.issues h.settings.root (h.directives.filter (·.isJudged)) := by
    rw [filter_directives]
    rfl
  rw [hjudge, Override.issues_filter_isJudged, Duplicate.issues_filter_isJudged, issues_eq]

theorem config_eq_judged (h : Hierarchy) :
    Effective.config h.directives = Effective.config (Precedence.order h.stream.judged.directives) := by
  rw [← filter_directives, Effective.config_filter_isJudged]

end Hierarchy

theorem Diagnostic.ofDocument_uncomments {text text' : String} (h : Text.Uncomments text text')
    (document : Path) (is : List Issue) :
    ofDocument .comment document text' is = ofDocument .comment document text is := by
  have hline : ∀ is (a b : String × Nat), Line.Uncomments a.1 b.1 ∧ b.2 = a.2 →
      ofLine .comment is b.2 b.1 = ofLine .comment is a.2 a.1 := by
    rintro is ⟨raw, n⟩ ⟨raw', _⟩ ⟨rfl | ⟨hcomment, hblank⟩, rfl⟩
    · rfl
    · simp [ofLine, hblank, Line.IsComment.kind hcomment]
  have hdocument : ∀ text, ofDocument .comment document text is = ((Text.lines text).zipIdx 1).filterMap
      fun line => ofLine .comment (is.filter (·.file = document)) line.2 line.1 := fun _ => rfl
  have hlines := Text.Rewrites.zipIdx (r := Line.Uncomments) h 1
  rw [hdocument, hdocument]
  generalize (Text.lines text).zipIdx 1 = ls, (Text.lines text').zipIdx 1 = ls' at hlines
  induction hlines with
  | nil => rfl
  | cons hab _ ih => rw [List.filterMap_cons, List.filterMap_cons, hline _ _ _ hab, ih]

namespace Document

variable {path : Path} {version : Int}

section Uncomments

variable (h : t.Uncomments t') (hpolicy : s.commentPolicy = .comment)
  (hg : Option.Rel Text.Uncomments given given')

include h

include hpolicy hg

theorem hierarchy_uncomments (path : Path) :
    Concur (fun g g' => g'.settings = g.settings ∧ g'.stream.judged = g.stream.judged ∧
      g'.failure? = g.failure?) (hierarchy s t path given) (hierarchy s t' path given') :=
  h.rewrites.hierarchy hg (fun document _ _ hc => ⟨rfl, h.stream_judged hpolicy hc document⟩) path

theorem issues_uncomments (path : Path) : issues s t' path given' = issues s t path given := by
  rw [issues_eq_bind, issues_eq_bind]
  refine ((hierarchy_uncomments h hpolicy hg path).bind_eq ?_).symm
  rintro g g' ⟨hs, hst, hf⟩
  refine (Hierarchy.settle_congr hf ?_).symm
  rw [Hierarchy.issues_eq_judge, Hierarchy.issues_eq_judge, hs, hst]

theorem config_uncomments (path : Path) : config s t' path given' = config s t path given := by
  rw [config_eq_bind, config_eq_bind]
  refine ((hierarchy_uncomments h hpolicy hg path).bind_eq ?_).symm
  rintro g g' ⟨_, hst, hf⟩
  refine (Hierarchy.settle_congr hf ?_).symm
  rw [Hierarchy.config_eq_judged, Hierarchy.config_eq_judged, hst]

theorem check_uncomments (path : Path) (version : Int) :
    check s t' path version given' = check s t path version given := by
  unfold check
  rw [h.rewrites.locate]
  congr 1
  funext document
  refine ((h.rewrites.text hg document).bind_eq fun content content' hc => ?_).symm
  rw [issues_uncomments h hpolicy (.some hc)]
  congr 1
  funext is
  rw [diagnostics, diagnostics, h.rewrites.locate, hpolicy]
  simp only [Diagnostic.ofDocument_uncomments hc]

/-- Leaving comments blank changes neither issues nor configuration, nor what is shown of the document. -/
theorem comments_have_no_effect (path : Path) :
    issues s t' path given' = issues s t path given ∧ config s t' path given' = config s t path given ∧
      ∀ version, check s t' path version given' = check s t path version given :=
  ⟨issues_uncomments h hpolicy hg path, config_uncomments h hpolicy hg path,
    check_uncomments h hpolicy hg path⟩

end Uncomments

open Hierarchy (place)

/-- The file of the document is as yet without the comment of its text. -/
def annotated : Hierarchy where
  settings := ⟨.ofString "/w", .ofString "/w/m", "x", .comment⟩
  tree := {
    here := place "/w"
    entries := [
      (place "/w", .directory), (place "/w/m", .directory),
      (place "/w/d", .file "!mid\nA=1".toUTF8.data.toList),
      (place "/w/m/mid", .file "# the rest\r\nA=2\n #A=1".toUTF8.data.toList)]
    nodup := by decide +kernel }
  root := place "/w/d"
  content := "!mid\n#A=2\nA=1"

def unannotated : Hierarchy where
  settings := annotated.settings
  tree := {
    here := place "/w"
    entries := [
      (place "/w", .directory), (place "/w/m", .directory),
      (place "/w/d", .file "!mid\nA=1".toUTF8.data.toList),
      (place "/w/m/mid", .file "\r\nA=2\n".toUTF8.data.toList)]
    nodup := by decide +kernel }
  root := place "/w/d"
  content := "!mid\n\nA=1"

theorem annotated_uncomments : annotated.tree.Uncomments unannotated.tree :=
  .of_entries ⟨rfl, by decide +kernel⟩ (by decide +kernel)

/-- A comment on `A` gives it no value, in `mid` as in the document. -/
theorem annotated_comments_have_no_effect :
    annotated.tree.Uncomments unannotated.tree ∧ annotated.settings.commentPolicy = .comment ∧
      Text.Uncomments annotated.content unannotated.content ∧
      issues annotated.settings unannotated.tree (.ofString "d") (some unannotated.content) =
        issues annotated.settings annotated.tree (.ofString "d") (some annotated.content) ∧
      config annotated.settings unannotated.tree (.ofString "d") (some unannotated.content) =
        config annotated.settings annotated.tree (.ofString "d") (some annotated.content) ∧
      check annotated.settings unannotated.tree (.ofString "d") 1 (some unannotated.content) =
        check annotated.settings annotated.tree (.ofString "d") 1 (some annotated.content) := by
  have hg : Text.Uncomments annotated.content unannotated.content := by decide +kernel
  obtain ⟨hissues, hconfig, hcheck⟩ :=
    comments_have_no_effect annotated_uncomments (s := annotated.settings) rfl (.some hg) (.ofString "d")
  exact ⟨annotated_uncomments, rfl, hg, hissues, hconfig, hcheck 1⟩

end Document

end LayeredConfig
