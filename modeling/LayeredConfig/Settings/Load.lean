import LayeredConfig.FileTree.Read
import LayeredConfig.Settings
import LayeredConfig.Yaml

namespace LayeredConfig

inductive SettingsError
  | path (error : PathError)
  | nameless
  | notFound (file : Path)
  | unreadable (file : Path) (cause : ReadError)
  | yaml (file : Path) (fault : Yaml.Fault)
  | notMapping (file : Path)
  | unknownKeys (file : Path) (keys : List String)
  | keyOfKind (key : Yaml.Key)
  | dayAndTime
  | zonedAndNot
  | importsDir (file : Path)
  | extension (file : Path)
  | commentPolicy (file : Path)
deriving DecidableEq, Repr

namespace SettingsError

def kindOfKey : Yaml.Key → String
  | .bytes => "bytes"
  | .null => "NoneType"
  | .bool _ => "bool"
  | .int _ => "int"
  | .float _ => "float"
  | .date => "datetime.date"
  | .time _ => "datetime.datetime"
  | .text _ => "str"

def message : SettingsError → String
  | .path error => error.message
  | .nameless => "\x27list\x27 object has no attribute \x27exists\x27"
  | .notFound file => s!"Settings file not found: {file}"
  | .unreadable file cause => s!"Failed to read settings from {file}: {cause.message file}"
  | .yaml file (.malformed explanation) => s!"Failed to read settings from {file}: {explanation}"
  | .yaml _ (.undecodable fault) => fault.message
  | .yaml _ (.other _ message) => message
  | .notMapping file => s!"Settings in {file} must be a mapping"
  | .unknownKeys file keys =>
      let names := ", ".intercalate keys
      s!"Unknown settings in {file}: {names}"
  | .keyOfKind key => s!"sequence item 0: expected str instance, {kindOfKey key} found"
  | .dayAndTime => "can\x27t compare datetime.datetime to datetime.date"
  | .zonedAndNot => "can\x27t compare offset-naive and offset-aware datetimes"
  | .importsDir file => s!"imports_dir must be a non-empty string in {file}"
  | .extension file => s!"extension must be a non-empty string in {file}"
  | .commentPolicy file => s!"comment_policy must be one of inclusion, comment in {file}"

end SettingsError

def CommentPolicy.text : CommentPolicy → String
  | .inclusion => "inclusion"
  | .comment => "comment"

namespace Settings

abbrev Entries := List (Yaml.Key × Yaml.Value)

def knownKeys : List String := ["imports_dir", "extension", "comment_policy"]

def isKnown : Yaml.Key → Bool
  | .text key => knownKeys.contains key
  | _ => false

def keyText? : Yaml.Key → Option String
  | .text key => some key
  | _ => none

/-- Numbers go by value. -/
def keyLe (a b : Yaml.Key) : Bool :=
  match a.number?, b.number? with
  | some x, some y => ¬y.lt x
  | _, _ => true

def isTime : Yaml.Key → Bool
  | .time _ => true
  | _ => false

/-- Unknown keys are listed in order. There is no order between days and times, or between times with
a zone and without one; and a list that would begin with something else than text cannot be written. -/
def checkKeys (file : Path) (entries : Entries) : Except SettingsError Unit :=
  let unknown := (entries.map (·.1)).filter fun key => ¬isKnown key
  if .date ∈ unknown ∧ unknown.any isTime then .error .dayAndTime
  else if .time true ∈ unknown ∧ .time false ∈ unknown then .error .zonedAndNot
  else match (unknown.filter fun key => (keyText? key).isNone).mergeSort keyLe with
  | key :: _ => .error (.keyOfKind key)
  | [] =>
      if unknown = [] then .ok ()
      else .error (.unknownKeys file ((unknown.filterMap keyText?).mergeSort (· ≤ ·)))

def find? (entries : Entries) (key : String) : Option Yaml.Value :=
  (entries.find? (·.1 = .text key)).map (·.2)

def textOf? : Yaml.Value → Option String
  | .text s => some s
  | .other => none

def optional {α : Type} (entries : Entries) (key : String) (error : SettingsError)
    (read : String → Option α) : Except SettingsError (Option α) :=
  match find? entries key with
  | none => .ok none
  | some value => match (textOf? value).bind read with
    | some a => .ok (some a)
    | none => .error error

def readNonEmpty (s : String) : Option String := if s = "" then none else some s

/-- Leading dots are not part of an extension. -/
def readExtension (s : String) : Option String :=
  readNonEmpty (String.ofList (s.toList.dropWhile (· = '.')))

def readPolicy (s : String) : Option CommentPolicy :=
  [.inclusion, .comment].find? (·.text = s)

def ofPath {α : Type} (a : Except PathError α) : Except SettingsError α := a.mapError .path

def ofEntries (t : FileTree) (root file : Path) (entries : Entries) :
    Except SettingsError Settings := do
  checkKeys file entries
  let given ← optional entries "imports_dir" (.importsDir file) readNonEmpty
  let importsDir ← given.mapM fun dir => ofPath (t.canonical (root.join (.ofString dir)))
  let extension ← optional entries "extension" (.extension file) readExtension
  let policy ← optional entries "comment_policy" (.commentPolicy file) readPolicy
  ofPath (forRoot t root (importsDir.map .ofLocation) extension policy)

def readEntries (yaml : Yaml.Reader) (t : FileTree) (file : Path) : Except SettingsError Entries := do
  let bytes ← (t.readBytes file).mapError (.unreadable file)
  match ← (yaml file bytes).mapError (.yaml file) with
  | .nothing => return []
  | .mapping entries => return entries
  | .other => throw (.notMapping file)

def fileOf (t : FileTree) (root : Path) (asked : SettingsFile) : Except SettingsError Path := do
  let root ← ofPath (t.canonical root)
  match asked with
  | .usual => return (Path.ofLocation root).join defaultFile
  | .named file => return file
  | .nameless => .error .nameless

def load (yaml : Yaml.Reader) (t : FileTree) (root : Path) (asked : SettingsFile) :
    Except SettingsError Settings := do
  let file ← fileOf t root asked
  let root := Path.ofLocation (← ofPath (t.canonical root))
  if ← ofPath (t.has file) then ofEntries t root file (← readEntries yaml t file)
  else if asked = .usual then ofPath (forRoot t root none none none)
  else throw (.notFound file)

end Settings

end LayeredConfig
