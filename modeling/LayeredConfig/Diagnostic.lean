import LayeredConfig.Issue
import LayeredConfig.Text.Blank
import LayeredConfig.Text.Lines

namespace LayeredConfig

/-- Columns count characters, from zero. -/
structure Diagnostic where
  line : Nat
  start : Nat
  stop : Nat
  severity : Severity
  message : String
  issues : List Issue
deriving DecidableEq, Repr

namespace Diagnostic

def combine (line : Nat) (raw : String) : List Issue → Option Diagnostic
  | [] => none
  | i :: is => some {
      line
      start := 0
      stop := (Text.dropEndWhile (· = '\r') raw.toList).length
      severity := is.foldl (fun worst i => worst.worse i.severity) i.severity
      message := "\n".intercalate ((i :: is).map (·.message))
      issues := i :: is }

def ofLine (policy : CommentPolicy) (issues : List Issue) (line : Nat) (raw : String) :
    Option Diagnostic :=
  let text := Text.trim raw
  if text = "" ∨ LineKind.ofText policy text = .comment then none
  else combine line raw (issues.filter (·.key = Line.key text))

/-- Issues of other files are not shown. -/
def ofDocument (policy : CommentPolicy) (document : Path) (text : String) (issues : List Issue) :
    List Diagnostic :=
  let own := issues.filter (·.file = document)
  ((Text.lines text).zipIdx 1).filterMap fun (raw, line) => ofLine policy own line raw

end Diagnostic

end LayeredConfig
