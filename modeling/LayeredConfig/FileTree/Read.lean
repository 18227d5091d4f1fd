import LayeredConfig.FileTree.Walk
import LayeredConfig.Text.Lines
import LayeredConfig.Text.Quoted
import LayeredConfig.Text.Utf8

namespace LayeredConfig

inductive ReadError
  | blocked (o : Obstacle)
  | isDirectory
  | undecodable (fault : Text.Utf8.Fault)
deriving DecidableEq, Repr

def Obstacle.message : Obstacle → String
  | .missing => "[Errno 2] No such file or directory"
  | .notDirectory => "[Errno 20] Not a directory"
  | .tooLong => "[Errno 36] File name too long"
  | .loop => "[Errno 40] Too many levels of symbolic links"

def ReadError.message (p : Path) : ReadError → String
  | .blocked o => s!"{o.message}: {Text.quoted p.text}"
  | .isDirectory => s!"[Errno 21] Is a directory: {Text.quoted p.text}"
  | .undecodable fault => fault.message

namespace FileTree

variable (t : FileTree)

def readBytes (p : Path) : Except ReadError (List UInt8) :=
  match t.node? p with
  | .ok (.file bytes) => .ok bytes
  | .ok .directory => .error .isDirectory
  | .ok (.link _) => .error (.blocked .loop)
  | .error o => .error (.blocked o)

def textOfBytes (bytes : List UInt8) : Except Text.Utf8.Fault String :=
  (Text.Utf8.decode bytes).map fun cs => String.ofList (Text.unifyNewlines cs)

def readText (p : Path) : Except ReadError String := do
  let bytes ← t.readBytes p
  (textOfBytes bytes).mapError .undecodable

end FileTree

end LayeredConfig
