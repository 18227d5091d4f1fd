import LayeredConfig.CommandLine
import LayeredConfig.Proofs.Hierarchy.Containment
import LayeredConfig.Proofs.Settings

namespace LayeredConfig

namespace CommandLine

variable {yaml : Yaml.Reader} {o : Options} {s : Settings} {t : FileTree} {path : Path} {paths : List Path}
  {e : PathError}

def Command.documents : Command → List Path
  | .check paths => paths
  | .flatten path => [path]
  | .locate _ => []

def Command.names : Command → List String
  | .locate name => [name]
  | _ => []

/-- How work may end: with a status, or where a document cannot be reached or a name not be looked up. -/
inductive Ends (s : Settings) (t : FileTree) (paths : List Path) (names : List String) : Ending → Prop
  | status {code : Nat} (h : code ≤ 1) : Ends s t paths names (.status code)
  | document {p : Path} {e : PathError} (hp : p ∈ paths)
      (he : Document.stream s t p none = .error (.path e)) : Ends s t paths names (.failure (.path e))
  | name {name : String} {e : PathError} (hn : name ∈ names)
      (he : Import.locate s t (importName name) = .error e) : Ends s t paths names (.failure (.path e))

variable {names : List String}

theorem Ends.cons {ending : Ending} (h : Ends s t paths names ending) :
    Ends s t (path :: paths) names ending := by
  cases h with
  | status h => exact .status h
  | document hp he => exact .document (List.mem_cons_of_mem path hp) he
  | name hn he => exact .name hn he

theorem Ends.after {outcome : Outcome} (h : Ends s t paths names outcome.ending) (failed : Bool)
    (output : Output) : Ends s t paths names (outcome.after failed output).ending := by
  simp only [Outcome.after]
  split
  · exact .status (Nat.le_refl 1)
  · exact h

def Resolved.result : Resolved → Except DocumentError Stream
  | .failure e _ => .error (.path e)
  | .unreadable e => .error (.unreadable e)
  | .stream st _ => .ok st

theorem result_resolve (o : Options) (s : Settings) (t : FileTree) (path : Path) :
    (resolve o s t path).result = Document.stream s t path none := by
  unfold resolve Document.stream
  cases Document.expansion s t path none with
  | error e => cases e <;> rfl
  | ok expanded =>
      obtain ⟨document, items⟩ := expanded
      change _ = (Stream.complete document items).mapError DocumentError.path
      dsimp only
      cases Stream.complete document items <;> rfl

section Run

variable {args : List String} {command : Command}

end Run

end CommandLine

end LayeredConfig
