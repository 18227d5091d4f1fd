import LayeredConfig.Duplicate
import LayeredConfig.Effective
import LayeredConfig.Stream
import LayeredConfig.Override
import LayeredConfig.Precedence
import LayeredConfig.Publication

namespace LayeredConfig

inductive DocumentError
  | path (error : PathError)
  | unreadable (error : UnreadableFile)
deriving DecidableEq, Repr

def DocumentError.message : DocumentError → String
  | .path error => error.message
  | .unreadable error => error.message

namespace Document

/-- The issues of a hierarchy: those of its imports, then overriding, then repeated lines. -/
def judge (root : Path) (stream : Stream) : List Issue :=
  let ordered := Precedence.order stream.directives
  stream.issues ++ Override.issues root ordered ++ Duplicate.issues root ordered

variable (s : Settings) (t : FileTree)

def locate (path : Path) : Except DocumentError Location := (t.canonical path).mapError .path

def text (document : Location) : Option String → Except DocumentError String
  | some given => .ok given
  | none => (Import.readDocument t document).mapError .unreadable

def expansion (path : Path) (given : Option String) : Except DocumentError (Location × List Item) := do
  let document ← locate t path
  let content ← text t document given
  return (document, Stream.items s t document content)

def stream (path : Path) (given : Option String) : Except DocumentError Stream := do
  let (document, items) ← expansion s t path given
  (Stream.complete document items).mapError .path

def directives (path : Path) (given : Option String) : Except DocumentError (List Directive) := do
  let stream ← stream s t path given
  return Precedence.order stream.directives

def config (path : Path) (given : Option String) : Except DocumentError Config := do
  let ordered ← directives s t path given
  return Effective.config ordered

def issues (path : Path) (given : Option String) : Except DocumentError (List Issue) := do
  let stream ← stream s t path given
  return judge s.root stream

def diagnostics (policy : CommentPolicy) (path : Path) (content : String) (issues : List Issue) :
    Except DocumentError (List Diagnostic) := do
  let document ← locate t path
  return Diagnostic.ofDocument policy (.ofLocation document) content issues

def check (path : Path) (version : Int) (given : Option String) : Except DocumentError Publication := do
  let document ← locate t path
  let content ← text t document given
  let issues ← issues s t (.ofLocation document) (some content)
  let diagnostics ← diagnostics t s.commentPolicy (.ofLocation document) content issues
  return ⟨document, version, diagnostics⟩

/-- Puts diagnostics on show, unless newer ones are. -/
def publish (ps : Publications) (path : Path) (version : Int) (diagnostics : List Diagnostic) :
    Except DocumentError (Publications × Bool) := do
  let document ← locate t path
  return ps.publish ⟨document, version, diagnostics⟩

def publishReport (ps : Publications) (report : Publication) : Except DocumentError (Publications × Bool) :=
  publish t ps (.ofLocation report.document) report.version report.diagnostics

def clear (ps : Publications) (path : Path) : Except DocumentError Publications := do
  let document ← locate t path
  return ps.clear document

def shownVersion (ps : Publications) (path : Path) : Except DocumentError (Option Int) := do
  let document ← locate t path
  return ps.version? document

def shown (ps : Publications) (path : Path) : Except DocumentError (List Diagnostic) := do
  let document ← locate t path
  return ps.diagnostics document

end Document

end LayeredConfig
