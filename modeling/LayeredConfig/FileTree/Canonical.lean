import LayeredConfig.FileTree.Walk
import LayeredConfig.Text.Quoted

namespace LayeredConfig

/-- No name that can be looked up holds the null character. -/
inductive PathError
  | nul
  | loop (place : Path)
  | tooLong (path : Path)
deriving DecidableEq, Repr

def PathError.message : PathError → String
  | .nul => "embedded null byte"
  | .loop place => s!"Symlink loop from {Text.quoted place.text}"
  | .tooLong path => s!"[Errno 36] File name too long: {Text.quoted path.text}"

def Path.hasNul (p : Path) : Bool := p.names.any fun name => '\x00' ∈ name.text.toList

namespace FileTree

variable (t : FileTree)

/-- Where a lost walk comes to its end there may be links again, and they may loop. -/
def canonical (p : Path) : Except PathError Location :=
  let l := t.destination p
  if p.hasNul then .error .nul
  else if (t.walk p).lost ∧ t.obstacle? (.ofLocation l) = some .loop then
    .error (.loop (.ofLocation l))
  else .ok l

theorem destination_of_canonical {p : Path} {l : Location} (h : t.canonical p = .ok l) :
    t.destination p = l := by
  unfold canonical at h
  grind

/-- What is found where a path leads. Whether something is there can be told in spite of all obstacles but
one: a name that is too long. -/
def lookUp (p : Path) : Except PathError (Option Node) :=
  if p.hasNul then .ok none
  else match t.node? p with
    | .ok n => .ok (some n)
    | .error .tooLong => .error (.tooLong p)
    | .error _ => .ok none

def has (p : Path) : Except PathError Bool := (t.lookUp p).map Option.isSome

def file? (p : Path) : Except PathError (Option Location) :=
  (t.lookUp p).map fun n => if n.any Node.isFile then some (t.destination p) else none

def firstFile? : List Path → Except PathError (Option Location)
  | [] => .ok none
  | p :: ps =>
      match t.file? p with
      | .error e => .error e
      | .ok (some l) => .ok (some l)
      | .ok none => firstFile? ps

theorem lookUp_eq_some_iff {p : Path} {n : Node} :
    t.lookUp p = .ok (some n) ↔ p.hasNul = false ∧ t.node? p = .ok n := by
  unfold lookUp
  split
  · simp_all
  · split <;> simp_all

theorem file?_eq_some_iff {p : Path} {l : Location} :
    t.file? p = .ok (some l) ↔
      p.hasNul = false ∧ (∃ bytes, t.node? p = .ok (.file bytes)) ∧ t.destination p = l := by
  constructor
  · intro h
    unfold file? at h
    cases hn : t.lookUp p with
    | error e => simp [hn, Except.map] at h
    | ok n =>
        cases n with
        | none => simp [hn, Except.map] at h
        | some n =>
            obtain ⟨hnul, hnode⟩ := t.lookUp_eq_some_iff.1 hn
            cases n with
            | directory | link => simp [hn, Except.map, Node.isFile] at h
            | file bytes => exact ⟨hnul, ⟨bytes, hnode⟩, by simpa [hn, Except.map, Node.isFile] using h⟩
  · rintro ⟨hnul, ⟨bytes, hnode⟩, rfl⟩
    rw [file?, t.lookUp_eq_some_iff.2 ⟨hnul, hnode⟩]
    rfl

theorem mem_files_of_file? {p : Path} {l : Location} (h : t.file? p = .ok (some l)) : l ∈ t.files := by
  obtain ⟨-, ⟨bytes, hnode⟩, rfl⟩ := t.file?_eq_some_iff.1 h
  exact t.mem_files_of_find? (t.node?_eq_ok_iff.1 hnode).2

theorem mem_files_of_firstFile? {ps : List Path} {l : Location} (h : t.firstFile? ps = .ok (some l)) :
    l ∈ t.files := by
  induction ps with
  | nil => cases h
  | cons p ps ih =>
      rw [firstFile?] at h
      split at h
      · cases h
      · rename_i hfile
        cases h
        exact t.mem_files_of_file? hfile
      · exact ih h

end FileTree

end LayeredConfig
