import LayeredConfig.Directive
import LayeredConfig.FileTree.Canonical

namespace LayeredConfig

/-- Imports are looked up in `importsDir`, first with the extension and then without. -/
structure Settings where
  root : Path
  importsDir : Path
  extension : String
  commentPolicy : CommentPolicy
deriving DecidableEq, Repr

/-- The file that the settings are asked from. It may have been asked for without a name. -/
inductive SettingsFile
  | usual
  | named (file : Path)
  | nameless
deriving DecidableEq, Repr

namespace Settings

def defaultFile : Path := .ofString ".metaconfig.yaml"

def defaultImports : Path := .ofString "metaconfig"

def defaultExtension : String := "metaconfig"

def forRoot (t : FileTree) (root : Path) (importsDir : Option Path) (extension : Option String)
    (commentPolicy : Option CommentPolicy) : Except PathError Settings := do
  let root := Path.ofLocation (← t.canonical root)
  return {
    root
    importsDir := importsDir.getD (root.join defaultImports)
    extension := extension.getD defaultExtension
    commentPolicy := commentPolicy.getD .inclusion }

def display (s : Settings) (p : Path) : String := s.root.display p

end Settings

end LayeredConfig
