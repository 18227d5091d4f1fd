import LayeredConfig.Import

namespace LayeredConfig

/-- A failure ends the reading, and of all that stands before it nothing counts. -/
inductive Item
  | directive (d : Directive)
  | issue (i : Issue)
  | failure (e : PathError)
deriving DecidableEq, Repr

namespace Item

def directive? : Item → Option Directive
  | .directive d => some d
  | _ => none

def issue? : Item → Option Issue
  | .issue i => some i
  | _ => none

def failure? : Item → Option PathError
  | .failure e => some e
  | _ => none

end Item

def Obstruction.item (s : Settings) (file : Location) (line : Int) (text : String) : Obstruction → Item
  | .problem p => .issue (p.issue s file line text)
  | .failure e => .failure e

structure Stream where
  root : Location
  directives : List Directive
  issues : List Issue
deriving DecidableEq, Repr

namespace Stream

variable (s : Settings) (t : FileTree)

/-- How many files may still be entered. -/
def unentered (active : List Location) : Nat := (t.files.filter (· ∉ active)).length

theorem unentered_lt {active : List Location} {target : Location} (hfile : target ∈ t.files)
    (hnew : target ∉ active) : unentered t (active ++ [target]) < unentered t active := by
  have h : t.files.filter (· ∉ active ++ [target]) =
      (t.files.filter (· ∉ active)).filter (· ≠ target) := by
    rw [List.filter_filter]
    congr 1
    funext l
    by_cases hl : l ∈ active <;> simp [hl]
  unfold unentered
  rw [h, List.length_filter_lt_length_iff_exists]
  exact ⟨target, by simp [hfile, hnew], by simp⟩

inductive Reading
  | items (items : List Item)
  | file (target : Location) (content : String)

/-- Reads a line of `file`, which the files `importers` lead to, the document first. -/
def readLine (importers : List Location) (file : Location) (raw : String) (line : Nat) : Reading :=
  let text := Text.trim raw
  if text = "" then .items []
  else match Directive.ofText s.commentPolicy (.ofLocation file) line importers.length text with
    | .ok d => .items [.directive d]
    | .error _ =>
        match Import.open? s t (importers ++ [file]) (Import.nameOfLine text) with
        | .ok (target, content) => .file target content
        | .error obstruction => .items [obstruction.item s file line text]

theorem mem_files_of_readLine {importers : List Location} {file target : Location} {raw : String}
    {line : Nat} {content : String}
    (h : readLine s t importers file raw line = .file target content) :
    target ∈ t.files ∧ target ∉ importers ++ [file] := by
  simp only [readLine] at h
  split at h
  · cases h
  · split at h
    · cases h
    · split at h <;> cases h
      rename_i hopen
      obtain ⟨hl, _, hnew⟩ := (Import.open?_eq_ok_iff s t).1 hopen
      exact ⟨Import.mem_files_of_locate s t hl, hnew⟩

/-- The items of a file, line after line, with those of an imported file in place of its import. -/
def expand (importers : List Location) (file : Location) (lines : List String) : List Item :=
  (lines.zipIdx 1).flatMap fun (raw, line) =>
    match _h : readLine s t importers file raw line with
    | .items items => items
    | .file target content => expand (importers ++ [file]) target (Text.lines content)
termination_by unentered t (importers ++ [file])
decreasing_by
  have := mem_files_of_readLine s t _h
  exact unentered_lt t this.1 this.2

def ofItems (root : Location) (items : List Item) : Stream :=
  ⟨root, items.filterMap Item.directive?, items.filterMap Item.issue?⟩

def items (root : Location) (text : String) : List Item := expand s t [] root (Text.lines text)

def ofText (root : Location) (text : String) : Stream := ofItems root (items s t root text)

def failure? (root : Location) (text : String) : Option PathError :=
  (items s t root text).findSome? Item.failure?

def complete (root : Location) (items : List Item) : Except PathError Stream :=
  match items.findSome? Item.failure? with
  | some e => .error e
  | none => .ok (ofItems root items)

end Stream

end LayeredConfig
