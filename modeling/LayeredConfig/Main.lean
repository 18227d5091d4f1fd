import LayeredConfig.CommandLine

namespace LayeredConfig.Main

def usage : String :=
  "usage: layered-config [-h] [--root DIR] [--settings FILE] [-v] check|flatten|locate ...\n"

def help : String :=
  usage ++
  "\nFollows the imports of configuration files and reports what they override.\n" ++
  "\n  check FILE...   report the issues of the files" ++
  "\n  flatten FILE    print the configuration that a file amounts to" ++
  "\n  locate NAME     print the file that an import of the name refers to\n" ++
  "\n  --root DIR      the project; the working directory if not given" ++
  "\n  --settings FILE the settings; .metaconfig.yaml of the project if not given" ++
  "\n  -v, --verbose   log what is done" ++
  "\n  -h, --help      print this text\n"

partial def copyFrom (t : FileTree) (place : Location) : List Name → IO FileTree
  | [] => return t
  | name :: names => do
      if name = .up then copyFrom t place.dropLast names
      else
        let next := place ++ [name]
        let disk ← IO.FS.realPath (Path.ofLocation place).text
        try
          let found := disk / name.text
          let info ← found.symlinkMetadata
          match info.type with
          | .dir => copyFrom (t.write next .directory) next names
          | .file =>
              let bytes ← IO.FS.readBinFile found
              copyFrom (t.write next (.file bytes.toList)) next names
          | .symlink =>
              let target := (Path.ofString (← IO.FS.realPath found).toString).names
              let t ← copyFrom (t.write next (.link (.ofLocation target))) [] target
              copyFrom t target names
          | .other => return t
        catch _ => return t

def copy (t : FileTree) (p : Path) : IO FileTree :=
  copyFrom t (if p.isRelative then t.here else []) p.names

def candidates (s : Settings) (t : FileTree) : List Path :=
  t.files.flatMap fun file =>
    match Import.readDocument t file with
    | .error _ => []
    | .ok content => (Text.lines content).flatMap fun line =>
        match (Text.trim line).toList with
        | '!' :: cs => Import.candidates s (Text.trim (String.ofList cs))
        | _ => []

partial def copyImports (s : Settings) (t : FileTree) : IO FileTree := do
  let next ← (candidates s t).foldlM copy t
  if next.files.length = t.files.length then return next else copyImports s next

def places (s : Settings) : CommandLine.Command → List Path
  | .check paths => paths
  | .flatten path => [path]
  | .locate name => Import.candidates s (Text.trim (CommandLine.importName name))

/-- The part of the disk that the work looks at. -/
def copyFor (yaml : Yaml.Reader) (o : CommandLine.Options) (command : CommandLine.Command) : IO FileTree := do
  let here := Path.ofString (← IO.FS.realPath (← IO.currentDir)).toString
  let t ← copy { FileTree.empty with here := here.names } here
  let root := o.root.getD here
  let t ← copy t root
  let t ← match Settings.fileOf t root o.settings with
    | .ok file => copy t file
    | .error _ => pure t
  match Settings.load yaml t root o.settings with
  | .error _ => return t
  | .ok s =>
      let t ← (s.importsDir :: places s command).foldlM copy t
      copyImports s t

def finish (outcome : CommandLine.Outcome) : IO UInt32 := do
  IO.print outcome.output.out
  IO.eprint outcome.output.err
  match outcome.ending with
  | .status code => return code.toUInt32
  | .help => IO.print help; return 0
  | .misuse => IO.eprint usage; return 2
  | .failure cause => IO.eprintln cause.message; return 1

def program (yaml : Yaml.Reader) (args : List String) : IO UInt32 := do
  let t ← match CommandLine.Request.ofArgs args with
    | .work options command => copyFor yaml options command
    | _ => pure .empty
  finish (CommandLine.run yaml t args)

end LayeredConfig.Main
