import LayeredConfig.Proofs.FileTree.Canonical
import LayeredConfig.Proofs.Hierarchy.Rewriting
import LayeredConfig.Proofs.Hierarchy.Showing
import LayeredConfig.Proofs.Publication

namespace LayeredConfig

variable {s : Settings} {t t' : FileTree}

namespace Import

/-- The first place at which a file is found under a name. -/
def Finds (s : Settings) (t : FileTree) (name : String) (p : Path) : Prop :=
  Text.trim name ≠ "" ∧ (candidates s (Text.trim name)).find? (fun p => t.file? p ≠ .ok none) = some p ∧
    t.file? p = .ok (some (t.destination p))

instance (s : Settings) (t : FileTree) (name : String) (p : Path) : Decidable (Finds s t name p) :=
  inferInstanceAs (Decidable (_ ∧ _))

variable {name name' : String} {p : Path} {l : Location}

theorem locate_of_finds (h : Finds s t name p) (hl : t.canonical p = .ok l) :
    locate s t name = .ok (some l) := by
  obtain ⟨hname, hfind, hfile⟩ := h
  rw [locate]
  simp only [if_neg hname, FileTree.firstFile?_eq_of_find? hfind, hfile, t.destination_of_canonical hl]

theorem open?_of_locate (h : locate s t name = .ok (some l)) (h' : locate s t name' = .ok (some l))
    (active : List Location) : open? s t active name' = open? s t active name := by
  rw [open?, open?, h, h']

end Import

/-- A line stays as it is, or it is an import and names its file in another way. -/
def Line.Aliases (s : Settings) (t : FileTree) (raw raw' : String) : Prop :=
  raw' = raw ∨ IsImport raw ∧ IsImport raw' ∧ ∃ p p' l,
    Import.Finds s t (Import.nameOfLine (Text.trim raw)) p ∧
    Import.Finds s t (Import.nameOfLine (Text.trim raw')) p' ∧
    t.canonical p = .ok l ∧ t.canonical p' = .ok l

def Issue.Renamed (i i' : Issue) : Prop := i' = { i with key := i'.key }

theorem Issue.Renamed.refl (i : Issue) : i.Renamed i := rfl

inductive Item.Renamed : Item → Item → Prop
  | directive (d : Directive) : Renamed (.directive d) (.directive d)
  | issue {i i' : Issue} (h : i.Renamed i') : Renamed (.issue i) (.issue i')
  | failure (e : PathError) : Renamed (.failure e) (.failure e)

namespace Item.Renamed

variable {xs xs' : List Item}

theorem refl (x : Item) : x.Renamed x := by
  cases x with
  | directive d => exact .directive d
  | issue i => exact .issue (.refl i)
  | failure e => exact .failure e

theorem filterMap_directive? (h : List.Forall₂ Item.Renamed xs xs') :
    xs'.filterMap Item.directive? = xs.filterMap Item.directive? := by
  induction h with
  | nil => rfl
  | @cons x x' xs xs' hx _ ih =>
      cases hx with
      | directive d => exact congrArg (d :: ·) ih
      | issue | failure => exact ih

theorem filterMap_issue? (h : List.Forall₂ Item.Renamed xs xs') :
    List.Forall₂ Issue.Renamed (xs.filterMap Item.issue?) (xs'.filterMap Item.issue?) := by
  induction h with
  | nil => exact .nil
  | @cons x x' xs xs' hx _ ih =>
      cases hx with
      | directive | failure => exact ih
      | issue hi => exact .cons hi ih

theorem findSome?_failure? (h : List.Forall₂ Item.Renamed xs xs') :
    xs'.findSome? Item.failure? = xs.findSome? Item.failure? := by
  induction h with
  | nil => rfl
  | @cons x x' xs xs' hx _ ih =>
      cases hx with
      | directive | issue => exact ih
      | failure e => rfl

end Item.Renamed

structure Stream.Renamed (a b : Stream) : Prop where
  root : b.root = a.root
  directives : b.directives = a.directives
  issues : List.Forall₂ Issue.Renamed a.issues b.issues

namespace FileTree.Rewrites

variable (h : t.Rewrites (Line.Aliases s t) t')

include h

theorem simulation_aliases :
    Simulation s t s t' (List.Forall₂ Item.Renamed) (Visit.Rewrites (Line.Aliases s t)) := by
  refine h.simulation (fun xs => List.forall₂_same.2 fun x _ => .refl x)
    (fun hxs hys => List.rel_append hxs hys) ?_
  intro v v' raw raw' hv hr
  obtain hr | ⟨hi, hi', p, p', l, hp, hp', hl, hl'⟩ := hr
  · exact .inl hr
  · refine .inr fun n => h.abreast_of_isImport hv hi hi' ?_ fun obstruction => ?_
    · exact Import.open?_of_locate (Import.locate_of_finds hp hl) (Import.locate_of_finds hp' hl') _
    · cases obstruction with
      | problem => exact .cons (.issue rfl) .nil
      | failure e => exact .cons (.failure e) .nil

theorem stream_renamed {content content' : String} (hc : Text.Rewrites (Line.Aliases s t) content content')
    (root : Location) : (Stream.ofText s t root content).Renamed (Stream.ofText s t' root content') ∧
      Stream.failure? s t' root content' = Stream.failure? s t root content := by
  have hv : Visit.Rewrites (Line.Aliases s t) ⟨[], root, content⟩ ⟨[], root, content'⟩ := ⟨rfl, rfl, hc⟩
  have hitems := h.simulation_aliases.items hv
  exact ⟨⟨rfl, Item.Renamed.filterMap_directive? hitems, Item.Renamed.filterMap_issue? hitems⟩,
    Item.Renamed.findSome?_failure? hitems⟩

end FileTree.Rewrites

namespace Document

variable {p q : Path} {l : Location} {given given' : Option String}

/-- Whatever is done with a document by way of `p` may as well be done by way of `q`. -/
structure SameDocument (s : Settings) (t : FileTree) (p q : Path) : Prop where
  stream : ∀ given, stream s t q given = stream s t p given
  directives : ∀ given, directives s t q given = directives s t p given
  config : ∀ given, config s t q given = config s t p given
  issues : ∀ given, issues s t q given = issues s t p given
  check : ∀ version given, check s t q version given = check s t p version given
  diagnostics : ∀ policy content is, diagnostics t policy q content is = diagnostics t policy p content is
  publish : ∀ ps version ds, publish t ps q version ds = publish t ps p version ds
  clear : ∀ ps, clear t ps q = clear t ps p
  shown : ∀ ps, shown t ps q = shown t ps p
  shownVersion : ∀ ps, shownVersion t ps q = shownVersion t ps p

theorem sameDocument (s : Settings) (h : t.canonical q = t.canonical p) : SameDocument s t p q := by
  have hlocate : locate t q = locate t p := by rw [locate, h, locate]
  have hstream (given : Option String) : stream s t q given = stream s t p given := by
    rw [stream, expansion, hlocate, stream, expansion]
  have hdirectives (given : Option String) : directives s t q given = directives s t p given := by
    rw [directives, hstream, directives]
  constructor
  · exact hstream
  · exact hdirectives
  · intro given
    rw [config, hdirectives, config]
  · intro given
    rw [issues, hstream, issues]
  · intro version given
    rw [check, hlocate, check]
  · intro policy content is
    rw [diagnostics, hlocate, diagnostics]
  · intro ps version ds
    rw [publish, hlocate, publish]
  · intro ps
    rw [clear, hlocate, clear]
  · intro ps
    rw [shown, hlocate, shown]
  · intro ps
    rw [shownVersion, hlocate, shownVersion]

theorem shown_of_publish (h : t.canonical q = t.canonical p) {ps ps' : Publications} {version : Int}
    {ds : List Diagnostic} (hpublish : publish t ps p version ds = .ok (ps', true)) :
    shown t ps' q = .ok ds ∧ shownVersion t ps' q = .ok (some version) ∧
      ∃ ps'', clear t ps' q = .ok ps'' ∧ shown t ps'' p = .ok [] ∧ shownVersion t ps'' p = .ok none := by
  cases hp : t.canonical p with
  | error e =>
      simp only [publish, locate, hp] at hpublish
      cases hpublish
  | ok l =>
      have hq := h.trans hp
      rw [Publications.publish_eq hp] at hpublish
      have hget := Publications.get?_of_publish (Except.ok.inj hpublish)
      have hcleared : (ps'.clear l).get? l = none := by rw [Publications.get?_clear, if_pos rfl]
      refine ⟨?_, ?_, ps'.clear l, Publications.clear_eq hq ps', ?_, ?_⟩
      · rw [Publications.shown_eq hq, hget]
        rfl
      · rw [Publications.shownVersion_eq hq, hget]
        rfl
      · rw [Publications.shown_eq hp, hcleared]
        rfl
      · rw [Publications.shownVersion_eq hp, hcleared]
        rfl

theorem publishReport_of_check (hp : t.canonical p = .ok l) (hagain : t.canonical (.ofLocation l) = .ok l)
    (hq : t.canonical q = .ok l) {version : Int} {report : Publication}
    (hcheck : check s t p version given = .ok report) (ps : Publications) :
    publishReport t ps report = publish t ps q version report.diagnostics := by
  obtain ⟨document, _, _, hdocument, _, _, _, rfl⟩ := check_eq_ok_iff.1 hcheck
  obtain rfl := Except.ok.inj (hdocument.symm.trans hp)
  rw [publishReport, Publications.publish_eq hagain, Publications.publish_eq hq]

theorem judge_renamed {a b : Stream} (h : a.Renamed b) (root : Path) :
    List.Forall₂ Issue.Renamed (judge root a) (judge root b) := by
  have hrefl (is : List Issue) : List.Forall₂ Issue.Renamed is is := List.forall₂_same.2 fun i _ => .refl i
  unfold judge
  rw [h.directives]
  exact List.rel_append (List.rel_append h.issues (hrefl _)) (hrefl _)

section Aliases

variable (h : t.Rewrites (Line.Aliases s t) t') (hg : Option.Rel (Text.Rewrites (Line.Aliases s t)) given given')
  (path : Path)

include h hg

theorem hierarchy_renamed : Concur
    (fun g g' => g'.settings = g.settings ∧ g.stream.Renamed g'.stream ∧ g'.failure? = g.failure?)
    (hierarchy s t path given) (hierarchy s t' path given') :=
  h.hierarchy hg (fun root _ _ hc => ⟨rfl, h.stream_renamed hc root⟩) path

theorem stream_renamed : Concur Stream.Renamed (stream s t path given) (stream s t' path given') := by
  rw [stream_eq_bind, stream_eq_bind]
  exact (hierarchy_renamed h hg path).bind fun g g' hgg => Hierarchy.concur_settle hgg.2.2 hgg.2.1

theorem config_renamed : config s t' path given' = config s t path given := by
  rw [config_eq_bind, config_eq_bind]
  refine ((hierarchy_renamed h hg path).bind_eq ?_).symm
  rintro g g' ⟨_, hst, hf⟩
  refine (Hierarchy.settle_congr hf ?_).symm
  rw [Hierarchy.directives, Hierarchy.directives, hst.directives]

theorem issues_renamed :
    Concur (List.Forall₂ Issue.Renamed) (issues s t path given) (issues s t' path given') := by
  rw [issues_eq_bind, issues_eq_bind]
  refine (hierarchy_renamed h hg path).bind ?_
  rintro g g' ⟨hs, hst, hf⟩
  refine Hierarchy.concur_settle hf ?_
  rw [Hierarchy.issues, Hierarchy.issues, hs]
  exact judge_renamed hst _

end Aliases

/-- Of two paths with one canonical form it does not matter which is taken, be it to read a document, to judge
it, or to put it on show and take it off again. Where no links lead in a circle, the canonical form is itself
such a path. And an imported file is one file under whatever names it is imported. -/
theorem only_canonical_paths_count (s : Settings) (t : FileTree) :
    (∀ p q, t.canonical q = t.canonical p → SameDocument s t p q ∧
      (∀ ps ps' version ds, publish t ps p version ds = .ok (ps', true) →
        shown t ps' q = .ok ds ∧ shownVersion t ps' q = .ok (some version) ∧
          ∃ ps'', clear t ps' q = .ok ps'' ∧ shown t ps'' p = .ok [] ∧ shownVersion t ps'' p = .ok none) ∧
      ∀ l, t.canonical p = .ok l → t.canonical (.ofLocation l) = .ok l →
        ∀ version given report, check s t p version given = .ok report →
          ∀ ps, publishReport t ps report = publish t ps q version report.diagnostics) ∧
    (∀ p l, t.Sound → ¬(t.walk p).lost → t.canonical p = .ok l → t.canonical (.ofLocation l) = .ok l) ∧
    ∀ t' given given', t.Rewrites (Line.Aliases s t) t' →
      Option.Rel (Text.Rewrites (Line.Aliases s t)) given given' → ∀ path,
        Concur Stream.Renamed (stream s t path given) (stream s t' path given') ∧
          config s t' path given' = config s t path given ∧
          Concur (List.Forall₂ Issue.Renamed) (issues s t path given) (issues s t' path given') := by
  refine ⟨fun p q h => ⟨sameDocument s h, fun ps ps' version ds => shown_of_publish h, ?_⟩,
    fun p l ht hlost hl => ht.canonical_canonical hl hlost, fun t' given given' h hg path => ?_⟩
  · intro l hl hagain version given report hcheck
    exact publishReport_of_check hl hagain (h.trans hl) hcheck
  · exact ⟨stream_renamed h hg path, config_renamed h hg path, issues_renamed h hg path⟩

open Hierarchy (place)

/-- The path `m/../link` leads to the document `d`, and in it both imports lead to one file. -/
def linked : Hierarchy where
  settings := ⟨.ofString "/w", .ofString "/w/m", "x", .inclusion⟩
  tree := {
    here := place "/w"
    entries := [
      (place "/w", .directory), (place "/w/m", .directory),
      (place "/w/d", .file "A=2".toUTF8.data.toList), (place "/w/link", .link (.ofString "d")),
      (place "/w/m/a", .file "A=1\n!b".toUTF8.data.toList), (place "/w/m/b", .link (.ofString "../m/a"))]
    nodup := by decide +kernel }
  root := place "/w/d"
  content := "!a\n!b\n-A\nA=2"

theorem linked_sound : linked.tree.Sound where
  here := by
    refine FileTree.Direct.nil.concat (by decide +kernel) fun link hlink => ?_
    have hdirectory : linked.tree.find? (place "/w") = some .directory := by decide +kernel
    cases hdirectory.symm.trans hlink
  nodes := by decide +kernel

theorem linked_aliases : Text.Rewrites (Line.Aliases linked.settings linked.tree) linked.content "!a\n!a\n-A\nA=2" := by
  have hlines : Text.lines linked.content = ["!a", "!b", "-A", "A=2"] := by decide +kernel
  have hlines' : Text.lines "!a\n!a\n-A\nA=2" = ["!a", "!a", "-A", "A=2"] := by decide +kernel
  have halias : Line.Aliases linked.settings linked.tree "!b" "!a" := by
    refine .inr ⟨by decide +kernel, by decide +kernel, .ofString "/w/m/b", .ofString "/w/m/a", place "/w/m/a", ?_⟩
    decide +kernel
  rw [Text.Rewrites, hlines, hlines']
  exact .cons (.inl rfl) (.cons halias (.cons (.inl rfl) (.cons (.inl rfl) .nil)))

/-- In `linked` the two imports are one, and two paths lead to `d`. -/
theorem linked_only_canonical_paths_count :
    linked.tree.Sound ∧ linked.tree.canonical (.ofString "m/../link") = linked.tree.canonical (.ofString "d") ∧
      linked.tree.canonical (.ofLocation linked.root) = .ok linked.root ∧
      (∀ given, check linked.settings linked.tree (.ofString "m/../link") 1 given =
        check linked.settings linked.tree (.ofString "d") 1 given) ∧
      config linked.settings linked.tree (.ofString "d") (some "!a\n!a\n-A\nA=2") =
        config linked.settings linked.tree (.ofString "d") (some linked.content) := by
  obtain ⟨hpaths, hagain, haliases⟩ := only_canonical_paths_count linked.settings linked.tree
  have hsame : linked.tree.canonical (.ofString "m/../link") = linked.tree.canonical (.ofString "d") := by
    decide +kernel
  have hroot : linked.tree.canonical (.ofString "m/../link") = .ok linked.root := by decide +kernel
  have hlost : ¬(linked.tree.walk (.ofString "m/../link")).lost := by decide +kernel
  refine ⟨linked_sound, hsame, hagain _ _ linked_sound hlost hroot, ?_, ?_⟩
  · exact (hpaths _ _ hsame).1.check 1
  · exact (haliases linked.tree _ _ (.refl (fun _ => .inl rfl) _) (.some linked_aliases) _).2.1

end Document

end LayeredConfig
