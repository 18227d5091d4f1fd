import Mathlib.Data.List.Perm.Subperm
import LayeredConfig.Proofs.Hierarchy.Issues
import LayeredConfig.Proofs.Hierarchy.Routes

namespace LayeredConfig

def Issue.content (i : Issue) : IssueKind × Severity × String × Path × Int × String :=
  (i.kind, i.severity, i.message, i.file, i.line, i.key)

theorem Issue.nodup_content_of_anchors {is : List Issue} (hn : (is.map Issue.anchor).Nodup) :
    (is.map Issue.content).Nodup := by
  refine List.Nodup.of_map (fun c => (c.2.2.2.1, c.2.2.2.2.1)) ?_
  rw [List.map_map]
  exact hn

theorem Issue.nodup_content_append {is js : List Issue} (hi : (is.map Issue.content).Nodup)
    (hj : (js.map Issue.content).Nodup) (hne : ∀ i ∈ is, ∀ j ∈ js, i.kind ≠ j.kind) :
    ((is ++ js).map Issue.content).Nodup := by
  rw [List.map_append, List.nodup_append]
  refine ⟨hi, hj, ?_⟩
  rintro _ hc _ hc' rfl
  obtain ⟨i, hi, rfl⟩ := List.mem_map.1 hc
  obtain ⟨j, hj, hij⟩ := List.mem_map.1 hc'
  exact hne i hi j hj (Prod.mk.inj hij).1.symm

namespace Hierarchy

variable (h : Hierarchy)

/-- Reached by `steps`, line `n` of `file` is an import that has the issue `i`. -/
def Reports (steps : List (Location × Nat)) (file : Location) (n : Nat) (i : Issue) : Prop :=
  ∃ raw, (raw, n) ∈ h.lines file ∧ Line.IsImport raw ∧ ∃ problem,
    Import.open? h.settings h.tree (steps.map Prod.fst ++ [file]) (Import.nameOfLine (Text.trim raw)) =
      .error (.problem problem) ∧ i = problem.issue h.settings file n (Text.trim raw)

variable {h} {steps : List (Location × Nat)} {file : Location} {p : List (Location × Nat) × Item}

theorem Reports.anchor {n : Nat} {i : Issue} (hi : h.Reports steps file n i) :
    i.anchor = (.ofLocation file, (n : Int)) := by
  obtain ⟨_, _, _, _, _, rfl⟩ := hi
  rfl

theorem issue_mem_trace_iff {i : Issue} : (p ∈ h.trace ∧ p.2.issue? = some i) ↔
    ∃ steps file n, h.Route steps file ∧ h.Reports steps file n i ∧
      p = (steps ++ [(file, n)], .issue i) := by
  rw [mem_trace_iff]
  constructor
  · rintro ⟨⟨steps, file, raw, n, items, hroute, hl, hr, hp, hx⟩, hi⟩
    obtain ⟨q, x⟩ := p
    cases x with
    | directive | failure => cases hi
    | issue j =>
        cases hi
        obtain ⟨himport, problem, ho, hi⟩ := Stream.issue_mem_readLine_iff.1 ⟨items, hr, hx⟩
        exact ⟨steps, file, n, hroute, ⟨raw, hl, himport, problem, ho, hi⟩, Prod.ext hp rfl⟩
  · rintro ⟨steps, file, n, hroute, ⟨raw, hl, himport, problem, ho, hi⟩, rfl⟩
    obtain ⟨items, hr, hx⟩ := Stream.issue_mem_readLine_iff.2 ⟨himport, problem, ho, hi⟩
    exact ⟨⟨steps, file, raw, n, items, hroute, hl, hr, rfl, hx⟩, rfl⟩

theorem nodup_filterMap_iff {α β : Type} {f : α → Option β} {l : List α} (hl : l.Nodup) :
    (l.filterMap f).Nodup ↔ ∀ a ∈ l, ∀ a' ∈ l, ∀ b, f a = some b → f a' = some b → a = a' := by
  rw [List.nodup_iff_pairwise_ne, List.pairwise_filterMap]
  constructor
  · intro hpair a ha a' ha' b hb hb'
    obtain ⟨i, hi, rfl⟩ := List.getElem_of_mem ha
    obtain ⟨j, hj, rfl⟩ := List.getElem_of_mem ha'
    rw [List.pairwise_iff_getElem] at hpair
    rcases Nat.lt_trichotomy i j with hij | rfl | hij
    · exact absurd rfl (hpair i j hi hj hij b hb b hb')
    · rfl
    · exact absurd rfl (hpair j i hj hi hij b hb' b hb)
  · intro hinj
    refine (List.nodup_iff_pairwise_ne.1 hl).imp_of_mem ?_
    rintro a a' ha ha' hne b hb _ hb' rfl
    exact hne (hinj a ha a' ha' b hb hb')

theorem nodup_stream_issues_iff : h.stream.issues.Nodup ↔
    ∀ file n steps steps' i, h.Route steps file → h.Route steps' file → h.Reports steps file n i →
      h.Reports steps' file n i → steps = steps' := by
  have htags : (h.trace.map Prod.fst).Nodup := Stream.nodup_trace _
  rw [stream_issues_eq, nodup_filterMap_iff htags.of_map]
  constructor
  · intro hinj file n steps steps' i hs hs' hi hi'
    obtain ⟨hp, hpi⟩ := issue_mem_trace_iff.2 ⟨steps, file, n, hs, hi, rfl⟩
    obtain ⟨hp', hpi'⟩ := issue_mem_trace_iff.2 ⟨steps', file, n, hs', hi', rfl⟩
    exact List.append_cancel_right (Prod.mk.inj (hinj _ hp _ hp' i hpi hpi')).1
  · intro hroutes p hp p' hp' i hi hi'
    obtain ⟨steps, file, n, hs, hr, rfl⟩ := issue_mem_trace_iff.1 ⟨hp, hi⟩
    obtain ⟨steps', file', n', hs', hr', rfl⟩ := issue_mem_trace_iff.1 ⟨hp', hi'⟩
    obtain ⟨hf, hn⟩ := Prod.mk.inj (hr.anchor.symm.trans hr'.anchor)
    obtain rfl := Path.ofLocation_inj.1 hf
    obtain rfl := Int.ofNat.inj hn
    rw [hroutes file n steps steps' i hs hs' hr hr']

def lineIssues (h : Hierarchy) : List Issue :=
  Override.issues h.settings.root h.directives ++ Duplicate.issues h.settings.root h.directives

theorem issues_eq_append (h : Hierarchy) : h.issues = h.stream.issues ++ h.lineIssues := by
  rw [issues_eq, List.append_assoc, lineIssues]

theorem kind_of_mem_lineIssues {i : Issue} (hi : i ∈ h.lineIssues) :
    i.kind ≠ .missingImport ∧ i.kind ≠ .cyclicImport := by
  rcases List.mem_append.1 hi with hi | hi
  · rcases kind_of_mem_override hi with hk | hk <;> simp [hk]
  · simp [Duplicate.kind_of_mem hi]

theorem nodup_lineIssues (h : Hierarchy) : (h.lineIssues.map Issue.content).Nodup := by
  have hoverride : ((Override.issues h.settings.root h.directives).map Issue.anchor).Nodup :=
    (Precedence.nodup_order _).sublist (Override.anchors_sublist h.directives)
  have hduplicate : ((Duplicate.issues h.settings.root h.directives).map Issue.anchor).Nodup :=
    Duplicate.nodup_anchors (Precedence.nodup_order _)
  refine Issue.nodup_content_append (Issue.nodup_content_of_anchors hoverride)
    (Issue.nodup_content_of_anchors hduplicate) ?_
  intro i hi j hj hk
  rw [Duplicate.kind_of_mem hj] at hk
  rcases kind_of_mem_override hi with hk' | hk' <;> exact absurd (hk.symm.trans hk') (by decide)

theorem directive_of_mem_stream {i : Issue} (hi : i ∈ h.stream.issues) : i.directive = none := by
  obtain ⟨_, _, _, _, _, _, _, _, _, rfl⟩ := mem_stream_issues_iff.1 hi
  rfl

theorem nodup_stream_content_iff : (h.stream.issues.map Issue.content).Nodup ↔ h.stream.issues.Nodup := by
  refine ⟨List.Nodup.of_map _, fun hn => hn.map_on ?_⟩
  intro i hi j hj he
  have hdi := directive_of_mem_stream hi
  have hdj := directive_of_mem_stream hj
  cases i
  cases j
  simp_all [Issue.content]

theorem nodup_issues_iff : (h.issues.map Issue.content).Nodup ↔ h.stream.issues.Nodup := by
  rw [issues_eq_append, ← nodup_stream_content_iff]
  constructor
  · intro hn
    rw [List.map_append] at hn
    exact hn.of_append_left
  · intro hn
    refine Issue.nodup_content_append hn h.nodup_lineIssues ?_
    intro i hi j hj hk
    obtain ⟨hmissing, hcyclic⟩ := kind_of_mem_lineIssues hj
    rw [← hk] at hmissing hcyclic
    exact (kind_of_mem_stream hi).elim hmissing hcyclic

variable {raw : String} {n : Nat}

theorem exists_problem (hi : Line.IsImport raw) (hnone : ∀ v, ¬h.Imports raw v) (hlong : ¬h.Overlong raw) :
    ∃ problem : ImportProblem, problem.kind = .missingImport ∧ ∀ active,
      Import.open? h.settings h.tree active (Import.nameOfLine (Text.trim raw)) =
        .error (.problem problem) := by
  unfold Import.open?
  rcases hlocate : Import.locate h.settings h.tree (Import.nameOfLine (Text.trim raw)) with e | _ | v
  · exact absurd ⟨hi, e, hlocate⟩ hlong
  · exact ⟨_, rfl, fun _ => rfl⟩
  · cases hread : Import.readDocument h.tree v with
    | error e => exact ⟨.unreadable e, rfl, fun _ => by simp only [hread]⟩
    | ok text => exact absurd ⟨hi, hlocate, text, hread⟩ (hnone v)

theorem filter_missing (h : Hierarchy) (anchor : Path × Int) :
    h.issues.filter (fun i => i.kind = .missingImport ∧ i.anchor = anchor) =
      h.stream.issues.filter fun i => i.kind = .missingImport ∧ i.anchor = anchor := by
  have hlines : h.lineIssues.filter (fun i => i.kind = .missingImport ∧ i.anchor = anchor) = [] := by
    rw [List.filter_eq_nil_iff]
    intro i hi
    simp [(kind_of_mem_lineIssues hi).1]
  rw [issues_eq_append, List.filter_append, hlines, List.append_nil]

theorem filter_lineIssues (h : Hierarchy) :
    h.issues.filter (fun i => i.kind ≠ .missingImport ∧ i.kind ≠ .cyclicImport) = h.lineIssues := by
  have hstream : h.stream.issues.filter
      (fun i => i.kind ≠ .missingImport ∧ i.kind ≠ .cyclicImport) = [] := by
    rw [List.filter_eq_nil_iff]
    intro i hi
    rcases kind_of_mem_stream hi with hk | hk <;> simp [hk]
  rw [issues_eq_append, List.filter_append, hstream, List.nil_append, List.filter_eq_self]
  intro i hi
  rw [decide_eq_true_eq]
  exact kind_of_mem_lineIssues hi

theorem count_stream_issues {i : Issue} (ha : i.anchor = (.ofLocation file, (n : Int))) :
    ∃ routes : List (List (Location × Nat)), routes.Nodup ∧
      (∀ steps, steps ∈ routes ↔ h.Route steps file ∧ h.Reports steps file n i) ∧
      h.stream.issues.count i = routes.length := by
  have htags : (h.trace.map Prod.fst).Nodup := Stream.nodup_trace _
  have hmem : ∀ p, p ∈ h.trace.filter (·.2.issue? = some i) ↔ ∃ steps, h.Route steps file ∧
      h.Reports steps file n i ∧ p = (steps ++ [(file, n)], .issue i) := by
    intro p
    rw [List.mem_filter, decide_eq_true_eq, issue_mem_trace_iff]
    constructor
    · rintro ⟨steps, file', n', hs, hr, rfl⟩
      obtain ⟨hf, hn⟩ := Prod.mk.inj (hr.anchor.symm.trans ha)
      obtain rfl := Path.ofLocation_inj.1 hf
      obtain rfl := Int.ofNat.inj hn
      exact ⟨steps, hs, hr, rfl⟩
    · rintro ⟨steps, hs, hr, rfl⟩
      exact ⟨steps, file, n, hs, hr, rfl⟩
  refine ⟨(h.trace.filter (·.2.issue? = some i)).map (·.1.dropLast), ?_, ?_, ?_⟩
  · refine (htags.of_map.filter _).map_on ?_
    intro p hp p' hp' he
    obtain ⟨steps, _, _, rfl⟩ := (hmem p).1 hp
    obtain ⟨steps', _, _, rfl⟩ := (hmem p').1 hp'
    rw [List.dropLast_concat, List.dropLast_concat] at he
    rw [he]
  · intro steps
    rw [List.mem_map]
    constructor
    · rintro ⟨p, hp, rfl⟩
      obtain ⟨steps, hs, hr, rfl⟩ := (hmem p).1 hp
      rw [List.dropLast_concat]
      exact ⟨hs, hr⟩
    · rintro ⟨hs, hr⟩
      exact ⟨_, (hmem _).2 ⟨steps, hs, hr, rfl⟩, List.dropLast_concat⟩
  · rw [List.length_map, ← List.countP_eq_length_filter, stream_issues_eq, List.count,
      List.countP_filterMap]
    congr 1
    funext p
    cases p.2.issue? with
    | none => rfl
    | some j => simp only [Option.map_some, Option.getD_some, Option.some.injEq, beq_eq_decide]

theorem missing_issues (hl : (raw, n) ∈ h.lines file) (hi : Line.IsImport raw)
    (hnone : ∀ v, ¬h.Imports raw v) (hlong : ¬h.Overlong raw) :
    ∃ (i : Issue) (routes : List (List (Location × Nat))), i.kind = .missingImport ∧ routes.Nodup ∧
      (∀ steps, steps ∈ routes ↔ h.Route steps file) ∧
      h.issues.filter (fun j => j.kind = .missingImport ∧ j.anchor = (.ofLocation file, (n : Int))) =
        List.replicate routes.length i := by
  obtain ⟨problem, hkind, hopen⟩ := exists_problem hi hnone hlong
  obtain ⟨routes, hnodup, hmem, hcount⟩ :=
    @count_stream_issues h file n (problem.issue h.settings file n (Text.trim raw)) rfl
  have hreports : ∀ steps, h.Reports steps file n (problem.issue h.settings file n (Text.trim raw)) :=
    fun steps => ⟨raw, hl, hi, problem, hopen _, rfl⟩
  refine ⟨problem.issue h.settings file n (Text.trim raw), routes, hkind, hnodup, ?_, ?_⟩
  · intro steps
    rw [hmem, and_iff_left (hreports steps)]
  · have hall : h.stream.issues.filter (fun j => j.kind = .missingImport ∧
        j.anchor = (.ofLocation file, (n : Int))) =
          h.stream.issues.filter (· == problem.issue h.settings file n (Text.trim raw)) := by
      apply List.filter_congr
      intro j hj
      rw [Bool.eq_iff_iff, decide_eq_true_eq, beq_iff_eq]
      constructor
      · rintro ⟨_, ha⟩
        obtain ⟨_, file', raw', n', _, hl', _, problem', ho, rfl⟩ := mem_stream_issues_iff.1 hj
        obtain ⟨hf, hn⟩ := Prod.mk.inj ha
        obtain rfl := Path.ofLocation_inj.1 hf
        obtain rfl := Int.ofNat.inj hn
        obtain rfl := lines_inj hl hl'
        rw [Obstruction.problem.inj (Except.error.inj ((hopen _).symm.trans ho))]
      · rintro rfl
        exact ⟨hkind, rfl⟩
    rw [filter_missing, hall, List.filter_beq, hcount]

theorem missing_issues_of_not_reaches (hfile : ¬h.Reaches file) :
    ∃ (i : Issue) (routes : List (List (Location × Nat))), i.kind = .missingImport ∧ routes.Nodup ∧
      (∀ steps, steps ∈ routes ↔ h.Route steps file) ∧
      h.issues.filter (fun j => j.kind = .missingImport ∧ j.anchor = (.ofLocation file, (n : Int))) =
        List.replicate routes.length i := by
  refine ⟨(ImportProblem.missing "").issue h.settings file n "", [], rfl, .nil, ?_, ?_⟩
  · intro steps
    simpa using fun hroute => hfile hroute.isPath.reaches
  · rw [filter_missing, List.length_nil, List.replicate_zero, List.filter_eq_nil_iff]
    intro i hi hk
    obtain ⟨importers, file', _, _, hp, _, _, _, _, rfl⟩ := mem_stream_issues_iff.1 hi
    have hf : (.ofLocation file', _) = (Path.ofLocation file, (n : Int)) := (of_decide_eq_true hk).2
    exact hfile (Path.ofLocation_inj.1 (Prod.mk.inj hf).1 ▸ hp.reaches)

/-- What is said about a directive is said once, and what is wrong with an import is said once for every
way to its line. -/
theorem issues_repeat_by_routes {path : Path} {given : Option String} (hr : h.ReadFrom path given) :
    ∃ is, Document.issues h.settings h.tree path given = .ok is ∧
      ((is.map Issue.content).Nodup ↔ ∀ file n steps steps' i, h.Route steps file → h.Route steps' file →
        h.Reports steps file n i → h.Reports steps' file n i → steps = steps') ∧
      ((is.filter fun i => i.kind ≠ .missingImport ∧ i.kind ≠ .cyclicImport).map Issue.content).Nodup ∧
      ∀ file raw n, (raw, n) ∈ h.lines file → Line.IsImport raw → (∀ v, ¬h.Imports raw v) →
        ∃ (i : Issue) (routes : List (List (Location × Nat))), i.kind = .missingImport ∧ routes.Nodup ∧
          (∀ steps, steps ∈ routes ↔ h.Route steps file) ∧
          is.filter (fun j => j.kind = .missingImport ∧ j.anchor = (.ofLocation file, (n : Int))) =
            List.replicate routes.length i := by
  refine ⟨h.issues, hr.issues, ?_, ?_, ?_⟩
  · rw [nodup_issues_iff, nodup_stream_issues_iff]
  · rw [filter_lineIssues]
    exact h.nodup_lineIssues
  · intro file raw n hl hi hnone
    by_cases hfile : h.Reaches file
    · exact missing_issues hl hi hnone (hr.searched file hfile (raw, n) hl)
    · exact missing_issues_of_not_reaches hfile

/-- Two ways lead to `c`, whose import leads nowhere. -/
def diamond : Hierarchy where
  settings := ⟨.ofString "/w", .ofString "/w/m", "x", .inclusion⟩
  tree := {
    here := place "/w"
    entries := [
      (place "/w", .directory), (place "/w/m", .directory),
      (place "/w/d", .file "!a\n!b".toUTF8.data.toList),
      (place "/w/m/a", .file "!c".toUTF8.data.toList),
      (place "/w/m/b", .file "!c".toUTF8.data.toList),
      (place "/w/m/c", .file "!lost".toUTF8.data.toList)]
    nodup := by decide +kernel }
  root := place "/w/d"
  content := "!a\n!b"

theorem diamond_readFrom : diamond.ReadFrom (.ofString "d") none :=
  FoundAt.readFrom ⟨by decide +kernel, by decide +kernel⟩ (by decide +kernel)

theorem diamond_route {raw : String} {n : Nat} {v : Location} (hl : (raw, n) ∈ diamond.lines diamond.root)
    (hi : diamond.Imports raw v) (hc : ("!c", 1) ∈ diamond.lines v) (hroot : v ≠ diamond.root)
    (hne : place "/w/m/c" ∉ [diamond.root, v]) :
    diamond.Route [(diamond.root, n), (v, 1)] (place "/w/m/c") := by
  have himports : diamond.Imports "!c" (place "/w/m/c") := by decide +kernel
  have hv : diamond.Route ([] ++ [(diamond.root, n)]) v := Route.start.step hl hi (by simpa using hroot)
  exact hv.step hc himports hne

theorem diamond_routes :
    diamond.Route [(place "/w/d", 1), (place "/w/m/a", 1)] (place "/w/m/c") ∧
      diamond.Route [(place "/w/d", 2), (place "/w/m/b", 1)] (place "/w/m/c") := by
  constructor
  · have hl : ("!a", 1) ∈ diamond.lines diamond.root := by decide +kernel
    exact diamond_route hl (by decide +kernel) (by decide +kernel) (by decide +kernel) (by decide +kernel)
  · have hl : ("!b", 2) ∈ diamond.lines diamond.root := by decide +kernel
    exact diamond_route hl (by decide +kernel) (by decide +kernel) (by decide +kernel) (by decide +kernel)

theorem diamond_lost :
    ("!lost", 1) ∈ diamond.lines (place "/w/m/c") ∧ Line.IsImport "!lost" ∧
      (∀ v, ¬diamond.Imports "!lost" v) ∧ ¬diamond.Overlong "!lost" := by
  have hfiles : ∀ v ∈ diamond.tree.files, ¬diamond.Imports "!lost" v := by decide +kernel
  exact ⟨by decide +kernel, by decide +kernel, fun v hv => hfiles v hv.mem_files hv, by decide +kernel⟩

theorem diamond_issues_repeat_by_routes :
    diamond.ReadFrom (.ofString "d") none ∧
      ∃ is, Document.issues diamond.settings diamond.tree (.ofString "d") none = .ok is ∧
        2 ≤ (is.filter fun i => i.kind = .missingImport ∧
          i.anchor = (.ofLocation (place "/w/m/c"), 1)).length := by
  obtain ⟨is, his, _, _, hmissing⟩ := issues_repeat_by_routes diamond_readFrom
  obtain ⟨hl, hi, hnone, _⟩ := diamond_lost
  obtain ⟨i, routes, _, _, hmem, hfilter⟩ := hmissing _ _ _ hl hi hnone
  refine ⟨diamond_readFrom, is, his, ?_⟩
  have hpair : [[(place "/w/d", 1), (place "/w/m/a", 1)],
      [(place "/w/d", 2), (place "/w/m/b", 1)]].Nodup := by decide +kernel
  have hsub : [[(place "/w/d", 1), (place "/w/m/a", 1)],
      [(place "/w/d", 2), (place "/w/m/b", 1)]] ⊆ routes := by
    simpa using ⟨(hmem _).2 diamond_routes.1, (hmem _).2 diamond_routes.2⟩
  have hle := (hpair.subperm hsub).length_le
  rw [← List.length_replicate (n := routes.length) (a := i), ← hfilter] at hle
  exact hle

/-- The same is said twice of the one import of `c`. -/
theorem diamond_issues_repeated :
    ∃ is, Document.issues diamond.settings diamond.tree (.ofString "d") none = .ok is ∧
      ¬(is.map Issue.content).Nodup := by
  refine ⟨diamond.issues, diamond_readFrom.issues, fun hn => ?_⟩
  obtain ⟨hl, hi, hnone, hlong⟩ := diamond_lost
  obtain ⟨problem, _, hopen⟩ := exists_problem hi hnone hlong
  have hreports : ∀ steps, diamond.Reports steps (place "/w/m/c") 1
      (problem.issue diamond.settings (place "/w/m/c") 1 (Text.trim "!lost")) :=
    fun steps => ⟨"!lost", hl, hi, problem, hopen _, rfl⟩
  have hsame := nodup_stream_issues_iff.1 (nodup_issues_iff.1 hn) _ _ _ _ _ diamond_routes.1
    diamond_routes.2 (hreports _) (hreports _)
  exact absurd hsame (by decide +kernel)

end Hierarchy

end LayeredConfig
