import Mathlib.Data.List.TakeWhile
import LayeredConfig.Proofs.FileTree
import LayeredConfig.Settings.Load

namespace LayeredConfig

/-- Errors of the settings file. All others are raised by what the loading relies on. -/
def SettingsError.IsReported : SettingsError → Prop
  | .path _ | .nameless | .keyOfKind _ | .dayAndTime | .zonedAndNot => False
  | .yaml _ fault => ∃ explanation, fault = .malformed explanation
  | .notFound _ | .unreadable _ _ | .notMapping _ | .unknownKeys _ _ => True
  | .importsDir _ | .extension _ | .commentPolicy _ => True

namespace Settings

variable {α β : Type} {x : Except SettingsError α} {e : SettingsError} {yaml : Yaml.Reader} {t : FileTree}
  {root file : Path} {l : Location} {asked : SettingsFile} {entries : Entries}

/-- The loading fails, and does not report it. -/
def Escapes (x : Except SettingsError α) : Prop := ∃ e, x = .error e ∧ ¬e.IsReported

@[simp]
theorem escapes_error : Escapes (.error e : Except SettingsError α) ↔ ¬e.IsReported := by
  simp [Escapes]

def unknown (entries : Entries) : List Yaml.Key :=
  (entries.map (·.1)).filter fun key => ¬isKnown key

section Optional

variable {key : String} {read : String → Option α}

end Optional

def directory (t : FileTree) (root file : Path) (entries : Entries) :
    Except SettingsError (Option Location) := do
  let given ← optional entries "imports_dir" (.importsDir file) readNonEmpty
  given.mapM fun dir => ofPath (t.canonical (root.join (.ofString dir)))

end Settings

namespace Yaml

def isWordChar (c : Char) : Bool := c.isAlpha || c = '_'

def wordEntry? (line : List Char) : Option (Key × Value) :=
  match line.dropWhile isWordChar with
  | ':' :: ' ' :: word =>
      if word ≠ [] ∧ word.all isWordChar then
        some (.text (String.ofList (line.takeWhile isWordChar)), .text (String.ofList word))
      else none
  | _ => none

/-- Reads a file that gives words to keys, line by line, and takes all else that there is in YAML for
malformed. -/
def wordReader : Reader := fun _ bytes =>
  match Text.Utf8.decode bytes with
  | .error fault => .error (.undecodable fault)
  | .ok cs =>
      match ((cs.splitOn '\n').filter (· ≠ [])).mapM wordEntry? with
      | some [] => .ok .nothing
      | some entries => .ok (.mapping entries)
      | none => .error (.malformed "expected a key and a word")

end Yaml

end LayeredConfig
