import LayeredConfig.FileTree.Read
import LayeredConfig.Issue
import LayeredConfig.Settings
import LayeredConfig.Text.Blank

namespace LayeredConfig

structure UnreadableFile where
  file : Path
  cause : ReadError
deriving DecidableEq, Repr

def UnreadableFile.message (e : UnreadableFile) : String :=
  s!"Failed to read metaconfig file {e.file}: {e.cause.message e.file}"

/-- A chain runs from the file that would be entered again, along the imports, back to it. -/
inductive ImportProblem
  | missing (name : String)
  | unreadable (error : UnreadableFile)
  | cyclic (chain : List Location)
deriving DecidableEq, Repr

namespace ImportProblem

def kind : ImportProblem → IssueKind
  | .missing _ => .missingImport
  | .unreadable _ => .missingImport
  | .cyclic _ => .cyclicImport

def severity : ImportProblem → Severity
  | .missing _ => .warning
  | .unreadable _ => .warning
  | .cyclic _ => .error

def message (s : Settings) : ImportProblem → String
  | .missing name => s!"Imported file '{name}' not found in {s.display s.importsDir}."
  | .unreadable error => error.message
  | .cyclic chain =>
      let names := " -> ".intercalate (chain.map fun l => s.display (.ofLocation l))
      s!"Cyclic import: {names}."

def issue (s : Settings) (file : Location) (line : Int) (text : String) (p : ImportProblem) : Issue :=
  ⟨p.kind, p.severity, p.message s, .ofLocation file, line, Line.key text, none⟩

end ImportProblem

/-- Why an import is not entered: there is an issue to report, or its name cannot be looked up. -/
inductive Obstruction
  | problem (problem : ImportProblem)
  | failure (error : PathError)
deriving DecidableEq, Repr

namespace Import

variable (s : Settings) (t : FileTree)

def nameOfLine (text : String) : String := Text.trim (String.ofList (text.toList.drop 1))

def chainMessage (chain : List Path) : String :=
  s!"Cyclic import: " ++ " -> ".intercalate (chain.map Path.name)

def candidates (name : String) : List Path :=
  [s!"{name}.{s.extension}", name].map fun n => s.importsDir.join (.ofString n)

def locate (name : String) : Except PathError (Option Location) :=
  let name := Text.trim name
  if name = "" then .ok none else t.firstFile? (candidates s name)

def readDocument (document : Location) : Except UnreadableFile String :=
  (t.readText (.ofLocation document)).mapError fun e => ⟨.ofLocation document, e⟩

/-- The file that `name` imports and its text, while the files `active` are being read, each imported
by the one before it. -/
def open? (active : List Location) (name : String) : Except Obstruction (Location × String) :=
  match locate s t name with
  | .error e => .error (.failure e)
  | .ok none => .error (.problem (.missing name))
  | .ok (some target) =>
      match readDocument t target with
      | .error e => .error (.problem (.unreadable e))
      | .ok text =>
          if target ∈ active then .error (.problem (.cyclic (active.dropWhile (· ≠ target) ++ [target])))
          else .ok (target, text)

theorem mem_files_of_locate {name : String} {l : Location} (h : locate s t name = .ok (some l)) :
    l ∈ t.files := by
  unfold locate at h
  simp only at h
  split at h
  · cases h
  · exact t.mem_files_of_firstFile? h

theorem open?_eq_ok_iff {active : List Location} {name : String} {target : Location} {text : String} :
    open? s t active name = .ok (target, text) ↔
      locate s t name = .ok (some target) ∧ readDocument t target = .ok text ∧ target ∉ active := by
  unfold open?
  split
  · simp_all
  · simp_all
  · rename_i l hl
    split
    · simp_all
      rintro rfl
      simp_all
    · split <;> grind

end Import

end LayeredConfig
