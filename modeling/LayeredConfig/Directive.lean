import LayeredConfig.Path
import LayeredConfig.Text.Lines
import LayeredConfig.Text.Quoted

namespace LayeredConfig

inductive CommentPolicy
  | inclusion
  | comment
deriving DecidableEq, Repr

inductive LineKind
  | importing
  | exclusion
  | inclusion
  | comment
deriving DecidableEq, Repr

namespace LineKind

def ofChars (policy : CommentPolicy) : List Char → LineKind
  | '!' :: _ => .importing
  | '-' :: _ => .exclusion
  | '#' :: _ => if policy = .comment then .comment else .inclusion
  | _ => .inclusion

def ofText (policy : CommentPolicy) (text : String) : LineKind := ofChars policy text.toList

end LineKind

namespace Line

def isMarker (c : Char) : Bool := c = '#' || c = '!' || c = '-'

/-- A marker goes only when something is left to be the key. -/
def dropMarker : List Char → List Char
  | c :: d :: cs => if isMarker c then d :: cs else c :: d :: cs
  | cs => cs

/-- The key runs up to the first `=`, but is never empty: an `=` in its first place belongs to it.
A text that holds more than one line has no key of its own and stands for itself. -/
def keyChars (cs : List Char) : List Char :=
  let line := Text.dropFinalNewline cs
  if '\n' ∈ line then cs
  else match dropMarker line with
    | [] => cs
    | c :: rest => c :: rest.takeWhile (· ≠ '=')

def valueChars (cs : List Char) : List Char := (cs.dropWhile (· ≠ '=')).drop 1

def key (text : String) : String := String.ofList (keyChars text.toList)

/-- Everything after the first `=` of the line, wherever it stands. -/
def value (text : String) : String := String.ofList (valueChars text.toList)

end Line

/-- A line at its place in the import hierarchy; `depth` counts the imports between the document
and the file. -/
structure Directive where
  file : Path
  line : Int
  depth : Int
  kind : LineKind
  key : String
  value : String
  text : String
deriving DecidableEq, Repr

inductive DirectiveError
  | importLine (text : String)
deriving DecidableEq, Repr

def DirectiveError.message : DirectiveError → String
  | .importLine text => s!"Import lines are not directives: {Text.quoted text}"

namespace Directive

def anchor (d : Directive) : Path × Int := (d.file, d.line)

def isJudged (d : Directive) : Bool := d.kind = .inclusion || d.kind = .exclusion

def ofText (policy : CommentPolicy) (file : Path) (line depth : Int) (text : String) :
    Except DirectiveError Directive :=
  match LineKind.ofText policy text with
  | .importing => .error (.importLine text)
  | kind => .ok ⟨file, line, depth, kind, Line.key text, Line.value text, text⟩

def location (root : Path) (d : Directive) : String := root.location d.file d.line

end Directive

theorem Line.valueChars_of_notMem {cs : List Char} (h : '=' ∉ cs) : Line.valueChars cs = [] := by
  induction cs with
  | nil => rfl
  | cons c cs ih =>
      simp only [List.mem_cons, not_or] at h
      simpa [Line.valueChars, List.dropWhile_cons, Ne.symm h.1] using ih h.2

theorem LineKind.ofChars_eq_importing_iff {policy : CommentPolicy} {cs : List Char} :
    LineKind.ofChars policy cs = .importing ↔ cs.head? = some '!' := by
  cases cs with
  | nil => simp [LineKind.ofChars]
  | cons c cs =>
      by_cases h : c = '!'
      · simp [h, LineKind.ofChars]
      · simp only [List.head?_cons, Option.some.injEq, h, iff_false]
        unfold LineKind.ofChars
        split <;> grind

theorem LineKind.ofText_eq_importing_iff {policy : CommentPolicy} {text : String} :
    LineKind.ofText policy text = .importing ↔ text.toList.head? = some '!' :=
  LineKind.ofChars_eq_importing_iff

theorem Directive.ofText_eq_ok_iff {policy : CommentPolicy} {file : Path} {line depth : Int}
    {text : String} {d : Directive} :
    Directive.ofText policy file line depth text = .ok d ↔
      LineKind.ofText policy text ≠ .importing ∧
        d = ⟨file, line, depth, LineKind.ofText policy text, Line.key text, Line.value text, text⟩ := by
  unfold Directive.ofText
  split <;> simp_all [eq_comm]

theorem Directive.ofText_eq_error_iff {policy : CommentPolicy} {file : Path} {line depth : Int}
    {text : String} {e : DirectiveError} :
    Directive.ofText policy file line depth text = .error e ↔
      LineKind.ofText policy text = .importing ∧ e = .importLine text := by
  unfold Directive.ofText
  split <;> simp_all [eq_comm]

theorem Directive.text_of_ofText {policy : CommentPolicy} {file : Path} {line depth : Int}
    {text : String} {d : Directive} (h : Directive.ofText policy file line depth text = .ok d) :
    d.text = text ∧ d.kind ≠ .importing := by
  unfold Directive.ofText at h
  split at h
  · cases h
  · cases h
    exact ⟨rfl, by assumption⟩

end LayeredConfig
