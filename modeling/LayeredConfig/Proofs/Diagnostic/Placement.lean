import Mathlib.Data.List.DropRight
import LayeredConfig.Document
import LayeredConfig.Proofs.Concur
import LayeredConfig.Proofs.Diagnostic

namespace LayeredConfig

theorem Text.dropEndWhile_eq_rdropWhile (p : Char → Bool) (cs : List Char) :
    dropEndWhile p cs = cs.rdropWhile p := rfl

theorem Text.exists_dropEndWhile (c : Char) (cs : List Char) : ∃ n,
    cs = dropEndWhile (· = c) cs ++ List.replicate n c ∧ (dropEndWhile (· = c) cs).getLast? ≠ some c := by
  rw [dropEndWhile_eq_rdropWhile]
  induction cs using List.reverseRecOn with
  | nil => exact ⟨0, rfl, nofun⟩
  | append_singleton cs d ih =>
      by_cases hd : d = c
      · subst hd
        obtain ⟨n, hcs, hlast⟩ := ih
        rw [List.rdropWhile_concat_pos _ _ _ (by simp)]
        refine ⟨n + 1, ?_, hlast⟩
        rw [List.replicate_succ', ← List.append_assoc, ← hcs]
      · rw [List.rdropWhile_concat_neg _ _ _ (by simpa using hd)]
        exact ⟨0, by simp, by simpa using hd⟩

theorem Severity.foldl_worse (s : Severity) (is : List Issue) :
    is.foldl (fun worst i => worst.worse i.severity) s ∈ s :: is.map (·.severity) ∧
      ∀ x ∈ s :: is.map (·.severity),
        (is.foldl (fun worst i => worst.worse i.severity) s).rank ≤ x.rank := by
  induction is generalizing s with
  | nil => simp
  | cons i is ih =>
      obtain ⟨hmem, hle⟩ := ih (s.worse i.severity)
      have hstep : s.worse i.severity = s ∨ s.worse i.severity = i.severity := by
        unfold worse
        split
        · exact .inr rfl
        · exact .inl rfl
      have hworse := worse_rank_le s i.severity
      have hfirst := hle _ List.mem_cons_self
      rw [List.foldl_cons, List.map_cons]
      constructor
      · rw [List.mem_cons] at hmem
        rcases hmem with hmem | hmem
        · rcases hstep with hs | hs
          · rw [hmem, hs]
            exact List.mem_cons_self
          · rw [hmem, hs]
            exact List.mem_cons_of_mem _ List.mem_cons_self
        · exact List.mem_cons_of_mem _ (List.mem_cons_of_mem _ hmem)
      · intro x hx
        rw [List.mem_cons, List.mem_cons] at hx
        rcases hx with rfl | rfl | hx
        · exact hfirst.trans hworse.1
        · exact hfirst.trans hworse.2
        · exact hle x (List.mem_cons_of_mem _ hx)

namespace Diagnostic

variable {policy : CommentPolicy} {document : Path} {text raw : String} {is others : List Issue}
  {d : Diagnostic} {n : Nat}

/-- The line `raw` of `document` has to show something of the issues `is`. -/
structure Calls (policy : CommentPolicy) (document : Path) (is : List Issue) (raw : String) : Prop where
  not_blank : Text.trim raw ≠ ""
  not_comment : LineKind.ofText policy (Text.trim raw) ≠ .comment
  keyed : ∃ i ∈ is, i.file = document ∧ i.key = Line.key (Text.trim raw)

/-- The diagnostic `d` sums up what the line `raw` of `document` has to show of the issues `is`. It reaches
from the start of the line to its end, carriage returns there left aside. -/
structure SumsUp (document : Path) (is : List Issue) (raw : String) (d : Diagnostic) : Prop where
  issues : d.issues = is.filter fun i => i.file = document ∧ i.key = Line.key (Text.trim raw)
  severity_mem : d.severity ∈ d.issues.map (·.severity)
  severity_le : ∀ i ∈ d.issues, d.severity.rank ≤ i.severity.rank
  message : d.message = "\n".intercalate (d.issues.map (·.message))
  start : d.start = 0
  stop : ∃ shown returns, raw.toList = shown ++ List.replicate returns '\r' ∧ shown.getLast? ≠ some '\r' ∧
    d.stop = shown.length

theorem filter_own (document : Path) (is : List Issue) (key : String) :
    (is.filter (·.file = document)).filter (·.key = key) =
      is.filter fun i => i.file = document ∧ i.key = key := by
  rw [List.filter_filter]
  apply List.filter_congr
  intro i _
  rw [Bool.eq_iff_iff, Bool.and_eq_true, decide_eq_true_eq, decide_eq_true_eq, decide_eq_true_eq, and_comm]

theorem exists_ofLine_iff :
    (∃ d, ofLine policy (is.filter (·.file = document)) n raw = some d) ↔ Calls policy document is raw := by
  constructor
  · intro ⟨d, hd⟩
    obtain ⟨-, hissues, hne⟩ := ofLine_eq_some hd
    obtain ⟨i, hi⟩ := List.exists_mem_of_ne_nil _ hne
    rw [hissues, filter_own] at hi
    obtain ⟨hi, hown⟩ := List.mem_filter.1 hi
    have hline : ¬(Text.trim raw = "" ∨ LineKind.ofText policy (Text.trim raw) = .comment) := by
      intro hskip
      rw [ofLine, if_pos hskip] at hd
      cases hd
    rw [not_or] at hline
    exact ⟨hline.1, hline.2, i, hi, of_decide_eq_true hown⟩
  · intro h
    obtain ⟨i, hi, hfile, hkey⟩ := h.keyed
    have hown : i ∈ is.filter (·.file = document) := List.mem_filter.2 ⟨hi, decide_eq_true hfile⟩
    obtain ⟨d, hd, -⟩ := exists_ofLine (n := n) h.not_blank h.not_comment hown hkey
    exact ⟨d, hd⟩

theorem sumsUp_of_combine
    (h : combine n raw (is.filter fun i => i.file = document ∧ i.key = Line.key (Text.trim raw)) = some d) :
    SumsUp document is raw d := by
  generalize hfound : (is.filter fun i => i.file = document ∧ i.key = Line.key (Text.trim raw)) = found at h
  cases found with
  | nil => cases h
  | cons i rest =>
      cases h
      obtain ⟨hmem, hle⟩ := Severity.foldl_worse i.severity rest
      obtain ⟨returns, hraw, hlast⟩ := Text.exists_dropEndWhile '\r' raw.toList
      exact {
        issues := hfound.symm
        severity_mem := hmem
        severity_le := fun j hj => hle _ (List.mem_map_of_mem hj)
        message := rfl
        start := rfl
        stop := ⟨_, returns, hraw, hlast, rfl⟩ }

theorem sumsUp_of_ofLine (h : ofLine policy (is.filter (·.file = document)) n raw = some d) :
    SumsUp document is raw d := by
  unfold ofLine at h
  dsimp only at h
  split at h
  · cases h
  · rw [filter_own] at h
    exact sumsUp_of_combine h

theorem line_mem_iff : n ∈ (ofDocument policy document text is).map Diagnostic.line ↔
    ∃ raw, (raw, n) ∈ (Text.lines text).zipIdx 1 ∧ Calls policy document is raw := by
  rw [List.mem_map]
  constructor
  · intro ⟨d, hd, hn⟩
    obtain ⟨raw, m, hl, hline⟩ := mem_ofDocument_iff.1 hd
    obtain rfl : m = n := (ofLine_eq_some hline).1.symm.trans hn
    exact ⟨raw, hl, exists_ofLine_iff.1 ⟨d, hline⟩⟩
  · intro ⟨raw, hl, hcalls⟩
    obtain ⟨d, hd⟩ := exists_ofLine_iff.2 hcalls
    exact ⟨d, mem_ofDocument_iff.2 ⟨raw, n, hl, hd⟩, (ofLine_eq_some hd).1⟩

theorem exists_sumsUp (hd : d ∈ ofDocument policy document text is) :
    ∃ raw, (raw, d.line) ∈ (Text.lines text).zipIdx 1 ∧ SumsUp document is raw d := by
  obtain ⟨raw, n, hl, hline⟩ := mem_ofDocument_iff.1 hd
  obtain rfl := (ofLine_eq_some hline).1
  exact ⟨raw, hl, sumsUp_of_ofLine hline⟩

theorem ofDocument_congr (h : others.filter (·.file = document) = is.filter (·.file = document)) :
    ofDocument policy document text others = ofDocument policy document text is := by
  rw [ofDocument, ofDocument, h]

end Diagnostic

namespace Document

/-- The diagnostics of a document that can be found stand in the order of their lines. The lines that call for
one have one, it sums up the issues of its line, and issues of other files make no difference. -/
theorem diagnostics_placed (t : FileTree) (policy : CommentPolicy) (path : Path) (text : String)
    (is : List Issue) :
    Concur (fun document ds =>
        (ds.map Diagnostic.line).Pairwise (· < ·) ∧
        (∀ n, n ∈ ds.map Diagnostic.line ↔ ∃ raw, (raw, n) ∈ (Text.lines text).zipIdx 1 ∧
          Diagnostic.Calls policy (.ofLocation document) is raw) ∧
        (∀ d ∈ ds, ∃ raw, (raw, d.line) ∈ (Text.lines text).zipIdx 1 ∧
          Diagnostic.SumsUp (.ofLocation document) is raw d) ∧
        ∀ others, others.filter (·.file = .ofLocation document) = is.filter (·.file = .ofLocation document) →
          diagnostics t policy path text others = .ok ds)
      (locate t path) (diagnostics t policy path text is) := by
  cases hroot : locate t path with
  | error e =>
      have herror : diagnostics t policy path text is = .error e := by
        rw [diagnostics, hroot]
        rfl
      rw [herror]
      exact .error e
  | ok document =>
      have hok : ∀ others, diagnostics t policy path text others =
          .ok (Diagnostic.ofDocument policy (.ofLocation document) text others) := by
        intro others
        rw [diagnostics, hroot]
        rfl
      rw [hok]
      refine .ok ⟨Diagnostic.pairwise_lines, fun n => Diagnostic.line_mem_iff,
        fun d hd => Diagnostic.exists_sumsUp hd, fun others h => ?_⟩
      rw [hok, Diagnostic.ofDocument_congr h]

end Document

end LayeredConfig
