import LayeredConfig.Directive

namespace LayeredConfig

inductive Severity
  | error
  | warning
  | information
  | hint
deriving DecidableEq, Repr

namespace Severity

def rank : Severity → Nat
  | .error => 1
  | .warning => 2
  | .information => 3
  | .hint => 4

def text : Severity → String
  | .error => "error"
  | .warning => "warning"
  | .information => "information"
  | .hint => "hint"

def worse (a b : Severity) : Severity := if b.rank < a.rank then b else a

end Severity

inductive IssueKind
  | redefinedWithoutExclusion
  | unnecessaryRedefinition
  | duplicateLine
  | missingImport
  | cyclicImport
deriving DecidableEq, Repr

def IssueKind.text : IssueKind → String
  | .redefinedWithoutExclusion => "redefined-without-exclusion"
  | .unnecessaryRedefinition => "unnecessary-redefinition"
  | .duplicateLine => "duplicate-line"
  | .missingImport => "missing-import"
  | .cyclicImport => "cyclic-import"

/-- Import problems carry no directive. -/
structure Issue where
  kind : IssueKind
  severity : Severity
  message : String
  file : Path
  line : Int
  key : String
  directive : Option Directive
deriving DecidableEq, Repr

namespace Issue

def ofDirective (d : Directive) (kind : IssueKind) (message : String) : Issue :=
  ⟨kind, .error, message, d.file, d.line, d.key, some d⟩

def anchor (i : Issue) : Path × Int := (i.file, i.line)

@[simp]
theorem anchor_ofDirective (d : Directive) (kind : IssueKind) (message : String) :
    (ofDirective d kind message).anchor = d.anchor := rfl

end Issue

theorem Severity.worse_rank_le (a b : Severity) :
    (a.worse b).rank ≤ a.rank ∧ (a.worse b).rank ≤ b.rank := by
  unfold Severity.worse
  split <;> omega

end LayeredConfig
