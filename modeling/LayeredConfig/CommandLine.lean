import LayeredConfig.CommandLine.Arguments
import LayeredConfig.Document
import LayeredConfig.Settings.Load

namespace LayeredConfig.CommandLine

/-- What the program gives no account of and passes on. -/
inductive Failure
  | settings (error : SettingsError)
  | path (error : PathError)
deriving DecidableEq, Repr

def Failure.message : Failure → String
  | .settings error => error.message
  | .path error => error.message

/-- Help and a note on usage are for the surroundings to word. -/
inductive Ending
  | status (code : Nat)
  | help
  | misuse
  | failure (cause : Failure)
deriving DecidableEq, Repr

structure Output where
  out : String
  err : String
deriving DecidableEq, Repr

structure Outcome where
  ending : Ending
  output : Output
deriving DecidableEq, Repr

namespace Output

def none : Output := ⟨"", ""⟩

def ofOut (s : String) : Output := ⟨s, ""⟩

def ofErr (s : String) : Output := ⟨"", s⟩

def append (a b : Output) : Output := ⟨a.out ++ b.out, a.err ++ b.err⟩

instance : Append Output := ⟨append⟩

end Output

inductive Level
  | debug
  | info

def Level.text : Level → String
  | .debug => "DEBUG"
  | .info => "INFO"

def log (verbose : Bool) (level : Level) (message : String) : Output :=
  if verbose then .ofErr s!"[metaconfig] {level.text} {message}\n" else .none

variable (yaml : Yaml.Reader) (o : Options) (s : Settings) (t : FileTree)

def logSettings (root : Path) : Output :=
  match Settings.fileOf t root o.settings with
  | .error _ => .none
  | .ok file =>
      match t.has file with
      | .error _ => .none
      | .ok found =>
          log o.verbose .debug <|
            if found then s!"Loaded settings from {file}" else s!"No settings file at {file}, using defaults"

def logItem : Item → Output
  | .issue i => log o.verbose .debug s!"{s.root.location i.file i.line}: {i.message}"
  | _ => .none

/-- Issues are told when they are found, whatever comes after them. -/
def logResolving (document : Location) (items : List Item) : Output :=
  log o.verbose .debug s!"Resolving {Path.ofLocation document}" ++
    ((items.takeWhile (·.failure?.isNone)).map (logItem o s)).foldl (· ++ ·) .none

def logStream (stream : Stream) : Output :=
  log o.verbose .debug <|
    s!"Resolved {Path.ofLocation stream.root}: {stream.directives.length} directives, " ++
      s!"{stream.issues.length} import issues"

def logJudgement (stream : Stream) : Output :=
  let ordered := Precedence.order stream.directives
  let overrides := Override.issues s.root ordered
  let root := Path.ofLocation stream.root
  log o.verbose .debug s!"Override analysis: {ordered.length} directives, {overrides.length} issues" ++
    log o.verbose .info s!"Checked {root}: {(Document.judge s.root stream).length} issue(s)"

def issueLine (i : Issue) : String :=
  s!"{s.root.location i.file i.line}: {i.severity.text}: {i.message}\n"

inductive Resolved
  | failure (e : PathError) (output : Output)
  | unreadable (e : UnreadableFile)
  | stream (stream : Stream) (output : Output)

def resolve (path : Path) : Resolved :=
  match Document.expansion s t path none with
  | .error (.path e) => .failure e .none
  | .error (.unreadable e) => .unreadable e
  | .ok (document, items) =>
      match Stream.complete document items with
      | .error e => .failure e (logResolving o s document items)
      | .ok stream => .stream stream (logResolving o s document items ++ logStream o stream)

def Outcome.after (failed : Bool) (output : Output) (outcome : Outcome) : Outcome where
  ending := match failed, outcome.ending with
    | true, .status _ => .status 1
    | _, ending => ending
  output := output ++ outcome.output

/-- A document fails when it cannot be read or has an issue that is an error, and the others are checked all
the same. Where names cannot be looked up the run is over. -/
def check : List Path → Outcome
  | [] => ⟨.status 0, .none⟩
  | path :: paths =>
      match resolve o s t path with
      | .failure e output => ⟨.failure (.path e), output⟩
      | .unreadable e => (check paths).after true (.ofErr s!"{path}: error: {e.message}\n")
      | .stream stream output =>
          let issues := Document.judge s.root stream
          (check paths).after (issues.any (·.severity = .error))
            (output ++ logJudgement o s stream ++ .ofOut (String.join (issues.map (issueLine s))))

def flatten (path : Path) : Outcome :=
  match resolve o s t path with
  | .failure e output => ⟨.failure (.path e), output⟩
  | .unreadable e => ⟨.status 1, .ofErr s!"{e.message}\n"⟩
  | .stream stream output =>
      ⟨.status 0, output ++ .ofOut (Effective.config (Precedence.order stream.directives)).render⟩

def importName (name : String) : String :=
  match (Text.trim name).toList with
  | '!' :: cs => String.ofList cs
  | cs => String.ofList cs

def locate (name : String) : Outcome :=
  match Import.locate s t (importName name) with
  | .error e => ⟨.failure (.path e), .none⟩
  | .ok (some target) => ⟨.status 0, .ofOut s!"{Path.ofLocation target}\n"⟩
  | .ok none => ⟨.status 1, .ofErr s!"Import '{name}' not found\n"⟩

def work : Command → Outcome
  | .check paths => check o s t paths
  | .flatten path => flatten o s t path
  | .locate name => locate s t name

/-- Settings that cannot be used end the run, but what the program gives no account of is passed on. -/
def settingsFailure (e : SettingsError) : Outcome :=
  match e with
  | .path _ | .nameless | .yaml _ (.undecodable _) | .yaml _ (.other _ _) | .keyOfKind _ | .dayAndTime
  | .zonedAndNot => ⟨.failure (.settings e), .none⟩
  | _ => ⟨.status 2, .ofErr s!"{e.message}\n"⟩

def run (args : List String) : Outcome :=
  match Request.ofArgs args with
  | .help => ⟨.help, .none⟩
  | .misuse => ⟨.misuse, .none⟩
  | .work o command =>
      let root := o.root.getD (.ofLocation t.here)
      match Settings.load yaml t root o.settings with
      | .error e => settingsFailure e
      | .ok s => (work o s t command).after false (logSettings o t root)

end LayeredConfig.CommandLine
