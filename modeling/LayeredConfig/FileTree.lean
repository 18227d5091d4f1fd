import LayeredConfig.Path

namespace LayeredConfig

abbrev Location := List Name

instance : LawfulBEq Location := inferInstance

def Path.ofLocation (l : Location) : Path := ⟨.root, l⟩

@[simp]
theorem Path.ofLocation_inj {l m : Location} : Path.ofLocation l = Path.ofLocation m ↔ l = m := by
  simp [Path.ofLocation]

/-- A name in a link, and whether two slashes follow it. -/
structure Step where
  name : Name
  doubled : Bool
deriving DecidableEq, Repr

/-- A relative link leads on from the directory that holds it; `directory` tells that nothing but a
directory will do at its end. -/
structure Link where
  isRelative : Bool
  steps : List Step
  directory : Bool
deriving DecidableEq, Repr

namespace Link

def stepsOf : List (List Char) → List Step
  | [] => []
  | cs :: more =>
      let doubled := more.head? = some [] && more.length ≠ 1
      ((Name.ofChars? cs).map (⟨·, doubled⟩)).toList ++ stepsOf more

/-- A link that ends in a slash or a dot is meant to lead to a directory. -/
def endsInDirectory (cs : List Char) : Bool :=
  match cs.reverse with
  | '/' :: _ => true
  | ['.'] => true
  | '.' :: '/' :: _ => true
  | _ => false

def ofString (s : String) : Link where
  isRelative := (Path.ofString s).isRelative
  steps := stepsOf (s.toList.splitOn '/')
  directory := endsInDirectory s.toList

def ofLocation (l : Location) : Link := ⟨false, l.map (⟨·, false⟩), false⟩

end Link

inductive Node
  | file (bytes : List UInt8)
  | directory
  | link (link : Link)
deriving DecidableEq, Repr

def Node.isFile : Node → Bool
  | .file _ => true
  | _ => false

def Node.isLink : Node → Bool
  | .link _ => true
  | _ => false

structure FileTree where
  here : Location
  entries : List (Location × Node)
  nodup : (entries.map Prod.fst).Nodup

namespace FileTree

variable (t : FileTree)

def empty : FileTree := ⟨[], [], .nil⟩

def find? (l : Location) : Option Node :=
  if l = [] then some .directory else (t.entries.find? (·.1 = l)).map (·.2)

def files : List Location := (t.entries.filter (·.2.isFile)).map (·.1)

def linkCount : Nat := t.entries.countP (·.2.isLink)

theorem nodup_filter (p : Location × Node → Bool) : ((t.entries.filter p).map Prod.fst).Nodup :=
  t.nodup.sublist (List.filter_sublist.map _)

def put (l : Location) (n : Node) : FileTree where
  here := t.here
  entries := (l, n) :: t.entries.filter (·.1 ≠ l)
  nodup := by
    rw [List.map_cons, List.nodup_cons]
    exact ⟨by simp, t.nodup_filter _⟩

def makeDirectory (l : Location) : FileTree :=
  (List.range l.length).foldl
    (fun t k => if (t.find? (l.take (k + 1))).isNone then t.put (l.take (k + 1)) .directory else t) t

def write (l : Location) (n : Node) : FileTree :=
  if l = [] then t else (t.makeDirectory l.dropLast).put l n

def remove (l : Location) : FileTree where
  here := t.here
  entries := t.entries.filter fun e => ¬l <+: e.1
  nodup := t.nodup_filter _

theorem find?_put_self {l : Location} (hl : l ≠ []) (n : Node) : (t.put l n).find? l = some n := by
  simp [find?, put, hl]

theorem find?_put_of_ne {l m : Location} (hm : m ≠ l) (n : Node) : (t.put l n).find? m = t.find? m := by
  unfold find?
  split
  · rfl
  · congr 1
    simp only [put, List.find?_cons, decide_eq_false hm.symm, List.find?_filter]
    congr 1
    funext e
    by_cases h : e.1 = m <;> simp [h, hm]

theorem find?_of_mem {e : Location × Node} (he : e ∈ t.entries) (hl : e.1 ≠ []) :
    t.find? e.1 = some e.2 := by
  have h : ∀ es : List (Location × Node), (es.map Prod.fst).Nodup → e ∈ es →
      es.find? (·.1 = e.1) = some e := by
    intro es
    induction es with
    | nil => simp
    | cons a es ih =>
        intro hnd hmem
        rw [List.map_cons, List.nodup_cons] at hnd
        rcases List.mem_cons.1 hmem with rfl | hmem
        · simp
        · have hne : a.1 ≠ e.1 := fun he => hnd.1 (he ▸ List.mem_map_of_mem hmem)
          rw [List.find?_cons_of_neg (by simpa using hne), ih hnd.2 hmem]
  rw [find?, if_neg hl, h _ t.nodup he, Option.map_some]

theorem mem_files_of_find? {l : Location} {bytes : List UInt8} (h : t.find? l = some (.file bytes)) :
    l ∈ t.files := by
  unfold find? at h
  split at h
  · cases h
  · obtain ⟨e, he, hn⟩ := Option.map_eq_some_iff.1 h
    have hl : e.1 = l := by simpa using List.find?_some he
    exact List.mem_map.2 ⟨e, List.mem_filter.2 ⟨List.mem_of_find?_eq_some he, by rw [hn]; rfl⟩, hl⟩

theorem nodup_files : t.files.Nodup := t.nodup_filter _

end FileTree

end LayeredConfig
