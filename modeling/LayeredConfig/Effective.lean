import LayeredConfig.Directive

namespace LayeredConfig

/-- Entries in the order in which they are written, each key once. -/
structure Config where
  entries : List (String × String)
deriving DecidableEq, Repr

namespace Config

def empty : Config := ⟨[]⟩

def erase (c : Config) (key : String) : Config := ⟨c.entries.filter (·.1 ≠ key)⟩

/-- The key moves to the end. -/
def insert (c : Config) (key value : String) : Config :=
  ⟨(c.erase key).entries ++ [(key, value)]⟩

/-- The key keeps its place if it has one. -/
def setIn (key value : String) : List (String × String) → List (String × String)
  | [] => [(key, value)]
  | e :: es => if e.1 = key then (key, value) :: es else e :: setIn key value es

def set (c : Config) (key value : String) : Config := ⟨setIn key value c.entries⟩

def get? (c : Config) (key : String) : Option String := (c.entries.find? (·.1 = key)).map (·.2)

def renderEntry (key value : String) : String :=
  if value = "" then s!"{key}\n" else s!"{key}={value}\n"

def render (c : Config) : String := String.join (c.entries.map fun e => renderEntry e.1 e.2)

def apply (c : Config) (d : Directive) : Config :=
  match d.kind with
  | .inclusion => c.insert d.key d.value
  | .exclusion => c.erase d.key
  | _ => c

theorem get?_erase (c : Config) (key k : String) :
    (c.erase key).get? k = if k = key then none else c.get? k := by
  rcases c with ⟨es⟩
  unfold get? erase
  induction es with
  | nil => simp
  | cons e es ih => grind

theorem get?_insert (c : Config) (key value k : String) :
    (c.insert key value).get? k = if k = key then some value else c.get? k := by
  have h := get?_erase c key k
  unfold get? at h ⊢
  rw [insert, List.find?_append, Option.map_or, h]
  by_cases hk : k = key
  · simp [hk]
  · simp [hk, Ne.symm hk]

theorem get?_set (c : Config) (key value k : String) :
    (c.set key value).get? k = if k = key then some value else c.get? k := by
  rcases c with ⟨es⟩
  unfold get? set
  induction es with
  | nil => grind [setIn]
  | cons e es ih => grind [setIn]

end Config

namespace Effective

def appliesBefore (a b : Directive) : Bool :=
  b.depth < a.depth || a.depth = b.depth && (a.kind = .exclusion || b.kind ≠ .exclusion)

/-- Directives of one depth and kind stay as they stand. -/
def stage (ds : List Directive) : List Directive := ds.mergeSort appliesBefore

def config (ds : List Directive) : Config := (stage ds).foldl Config.apply .empty

end Effective

end LayeredConfig
