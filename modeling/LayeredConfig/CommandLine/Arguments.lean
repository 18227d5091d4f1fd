import LayeredConfig.Settings
import LayeredConfig.Text.DecimalDigit
import LayeredConfig.Text.Lines

namespace LayeredConfig.CommandLine

structure Options where
  root : Option Path
  settings : SettingsFile
  verbose : Bool
deriving DecidableEq, Repr

inductive Command
  | check (paths : List Path)
  | flatten (path : Path)
  | locate (name : String)
deriving DecidableEq, Repr

inductive Request
  | work (options : Options) (command : Command)
  | help
  | misuse
deriving DecidableEq, Repr

inductive Setting
  | root
  | settings
deriving DecidableEq, Repr

/-- An argument by itself. One that is misused has a part that means nothing or is given a value that
it has no use for; an ambiguous one is cut so short that several options begin like it. -/
inductive Argument
  | plain (text : String)
  | flags (verbose help : Bool)
  | setting (which : Setting) (value : Option String)
  | unknown
  | ambiguous
  | misused
deriving DecidableEq, Repr

namespace Argument

def isFlag (c : Char) : Bool := c = 'v' || c = 'h'

/-- Letters may share one dash, and an equals sign may stand behind the first of them. -/
def ofLetters (first : Char) (others : List Char) : Argument :=
  let letters := match others with
    | '=' :: c :: cs => first :: c :: cs
    | _ => first :: others
  if letters.all isFlag then .flags (letters.contains 'v') (letters.contains 'h') else .misused

/-- A minus and a decimal number, perhaps with a newline at its end. -/
def isNegativeNumber (cs : List Char) : Bool :=
  match Text.dropFinalNewline cs with
  | '-' :: ds =>
      match ds.dropWhile Text.isDecimalDigit with
      | [] => ds ≠ []
      | c :: fraction => c = '.' && fraction ≠ [] && fraction.all Text.isDecimalDigit
  | _ => false

def splitValue (cs : List Char) : String × Option String :=
  let name := String.ofList (cs.takeWhile (· ≠ '='))
  match cs.dropWhile (· ≠ '=') with
  | [] => (name, none)
  | _ :: value => (name, some (String.ofList value))

def longNames : List String := ["--help", "--root", "--settings", "--verbose"]

/-- A long option may be cut short, down to its dashes. -/
def longNamed (name : String) : List String :=
  if ['-', '-'] <+: name.toList then longNames.filter (name.toList <+: ·.toList) else []

def ofLong (name : String) (value : Option String) : Argument :=
  match name, value with
  | "--root", value => .setting .root value
  | "--settings", value => .setting .settings value
  | "--verbose", none => .flags true false
  | "--help", none => .flags false true
  | _, _ => .misused

def ofDashed (text : String) (cs : List Char) : Argument :=
  let (name, value) := splitValue cs
  match longNamed name, cs.drop 1 with
  | [full], _ => ofLong full value
  | _ :: _, _ => .ambiguous
  | [], [] => .plain text
  | [], c :: others =>
      if isFlag c then ofLetters c others
      else if isNegativeNumber cs ∨ ' ' ∈ cs then .plain text
      else .unknown

def ofString (text : String) : Argument :=
  match text.toList with
  | '-' :: cs => ofDashed text ('-' :: cs)
  | _ => .plain text

end Argument

/-- Among the arguments of a command, all those behind this one are plain. -/
def endOfOptions : String := "--"

def Options.none : Options := ⟨.none, .usual, false⟩

/-- What ends the options names nothing when it is given as a value. -/
def Options.set (o : Options) (which : Setting) (value : String) : Options :=
  let path := if value = endOfOptions then .none else some (Path.ofString value)
  match which with
  | .root => { o with root := path }
  | .settings => { o with settings := path.elim .nameless .named }

def takeValue : List String → Option (String × List String)
  | [] => none
  | a :: args =>
      if a = endOfOptions then none
      else match Argument.ofString a with
        | .plain value => some (value, args)
        | _ => none

theorem takeValue_length {args rest : List String} {value : String}
    (h : takeValue args = some (value, rest)) : rest.length < args.length := by
  cases args with
  | nil => simp [takeValue] at h
  | cons a args =>
      simp only [takeValue] at h
      split at h
      · cases h
      · split at h <;> cases h
        simp

/-- The arguments of a command as far as they are read. The plain ones have to stand together;
`faulty` tells that something was out of place. -/
structure Reading where
  options : Options
  plain : List String
  closed : Bool
  faulty : Bool

namespace Reading

def start (options : Options) (faulty : Bool) : Reading := ⟨options, [], false, faulty⟩

def close (r : Reading) : Reading := { r with closed := r.closed || r.plain ≠ [] }

def add (r : Reading) (args : List String) : Reading :=
  if r.closed then { r with faulty := true } else { r with plain := r.plain ++ args }

def ofArgs (r : Reading) : List String → Except Request Reading
  | [] => .ok r
  | a :: args =>
      if a = endOfOptions then .ok (r.add args)
      else match Argument.ofString a with
        | .plain text => ofArgs (r.add [text]) args
        | .flags verbose help =>
            if help then .error .help
            else
              let options := { r.options with verbose := r.options.verbose || verbose }
              ofArgs { r.close with options } args
        | .setting which (some value) =>
            ofArgs { r.close with options := r.options.set which value } args
        | .setting which none =>
            match _h : takeValue args with
            | some (value, rest) => ofArgs { r.close with options := r.options.set which value } rest
            | none => .error .misuse
        | .unknown => ofArgs { r.close with faulty := true } args
        | .ambiguous | .misused => .error .misuse
termination_by args => args.length
decreasing_by all_goals (simp only [List.length_cons]; try have := takeValue_length _h); omega

end Reading

def Command.of? (name : String) (args : List String) : Option Command :=
  match name, args with
  | "check", a :: args => some (.check ((a :: args).map .ofString))
  | "flatten", [a] => some (.flatten (.ofString a))
  | "locate", [a] => some (.locate a)
  | _, _ => none

def isCommand (name : String) : Bool := ["check", "flatten", "locate"].contains name

def readCommand (options : Options) (faulty : Bool) (name : String) (args : List String) : Request :=
  if ¬isCommand name then .misuse
  else match (Reading.start options faulty).ofArgs args with
    | .error request => request
    | .ok r =>
        if r.faulty then .misuse
        else match Command.of? name r.plain with
          | some command => .work r.options command
          | none => .misuse

def readArgs (options : Options) (faulty : Bool) : List String → Request
  | [] => .misuse
  | a :: args =>
      if a = endOfOptions then .misuse
      else match Argument.ofString a with
        | .plain name => readCommand options faulty name args
        | .flags verbose help =>
            if help then .help
            else readArgs { options with verbose := options.verbose || verbose } faulty args
        | .setting which (some value) => readArgs (options.set which value) faulty args
        | .setting which none =>
            match _h : takeValue args with
            | some (value, rest) => readArgs (options.set which value) faulty rest
            | none => .misuse
        | .unknown => readArgs options true args
        | .ambiguous | .misused => .misuse
termination_by args => args.length
decreasing_by all_goals (simp only [List.length_cons]; try have := takeValue_length _h); omega

/-- An ambiguous option is turned down before anything else is read. -/
def Request.ofArgs (args : List String) : Request :=
  if (args.takeWhile (· ≠ endOfOptions)).any (Argument.ofString · = .ambiguous) then .misuse
  else readArgs .none false args

end LayeredConfig.CommandLine
