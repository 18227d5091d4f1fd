namespace LayeredConfig

/-- A component of a path. `..` is one. -/
structure Name where
  text : String
  isName : text ≠ "" ∧ text ≠ "." ∧ '/' ∉ text.toList
deriving DecidableEq, Repr

namespace Name

theorem ext {m n : Name} (h : m.text = n.text) : m = n := by
  cases m; cases n; cases h; rfl

def ofString? (s : String) : Option Name :=
  if h : s ≠ "" ∧ s ≠ "." ∧ '/' ∉ s.toList then some ⟨s, h⟩ else none

def up : Name := ⟨"..", by decide⟩

def ofChars? (cs : List Char) : Option Name := ofString? (String.ofList cs)

theorem ofChars?_text (n : Name) : ofChars? n.text.toList = some n := by
  simp [ofChars?, ofString?, n.isName]

theorem toList_ne_nil (n : Name) : n.text.toList ≠ [] := by
  simpa using n.isName.1

end Name

/-- Where a path starts from. Two slashes are not one: systems may read them differently. -/
inductive Anchor
  | here
  | root
  | doubleRoot
deriving DecidableEq, Repr

namespace Anchor

def slashes : Anchor → List Char
  | .here => []
  | .root => ['/']
  | .doubleRoot => ['/', '/']

def ofCount : Nat → Anchor
  | 0 => .here
  | 2 => .doubleRoot
  | _ => .root

end Anchor

structure Path where
  anchor : Anchor
  names : List Name
deriving DecidableEq, Repr

namespace Path

def ofString (s : String) : Path where
  anchor := .ofCount (s.toList.takeWhile (· = '/')).length
  names := (s.toList.splitOn '/').filterMap Name.ofChars?

def namesText (names : List Name) : List Char := ['/'].intercalate (names.map (·.text.toList))

def text (p : Path) : String :=
  if p = ⟨.here, []⟩ then "." else String.ofList (p.anchor.slashes ++ namesText p.names)

instance : ToString Path := ⟨text⟩

def isRelative (p : Path) : Bool := p.anchor = .here

def join (p q : Path) : Path :=
  if q.isRelative then { p with names := p.names ++ q.names } else q

def name (p : Path) : String := (p.names.getLast?.map Name.text).getD ""

/-- The way from `root` down to `p`, when `p` is `root` or lies below it. -/
def below? (root p : Path) : Option Path :=
  if p.anchor = root.anchor ∧ root.names <+: p.names then
    some ⟨.here, p.names.drop root.names.length⟩
  else none

/-- How messages name a file: from the root when it lies there, in full otherwise. -/
def display (root p : Path) : String := ((below? root p).getD p).text

def location (root p : Path) (line : Int) : String := s!"{display root p}:{line}"

theorem below?_join (root : Path) (names : List Name) :
    below? root (root.join ⟨.here, names⟩) = some ⟨.here, names⟩ := by
  simp [below?, join, isRelative]

theorem splitOn_namesText {names : List Name} (h : names ≠ []) :
    (namesText names).splitOn '/' = names.map (·.text.toList) := by
  refine List.splitOn_intercalate '/' ?_ (by simpa using h)
  intro cs hcs
  obtain ⟨n, _, rfl⟩ := List.mem_map.1 hcs
  exact n.isName.2.2

theorem filterMap_ofChars? (names : List Name) :
    (names.map (·.text.toList)).filterMap Name.ofChars? = names := by
  induction names with
  | nil => rfl
  | cons n ns ih => rw [List.map_cons, List.filterMap_cons, Name.ofChars?_text, ih]

theorem filterMap_splitOn_namesText (names : List Name) :
    ((namesText names).splitOn '/').filterMap Name.ofChars? = names := by
  cases names with
  | nil => decide
  | cons n ns => rw [splitOn_namesText (by simp), filterMap_ofChars?]

theorem takeWhile_namesText (names : List Name) :
    (namesText names).takeWhile (· = '/') = [] := by
  cases names with
  | nil => rfl
  | cons n ns =>
      obtain ⟨c, cs, hc⟩ := List.exists_cons_of_ne_nil n.toList_ne_nil
      have hs : c ≠ '/' := fun e => n.isName.2.2 (by simp [hc, e])
      cases ns <;> simp [namesText, List.intercalate, hc, hs]

theorem ofChars?_nil : Name.ofChars? [] = none := by decide

theorem ofString_slashes (a : Anchor) (names : List Name) :
    ofString (String.ofList (a.slashes ++ namesText names)) = ⟨a, names⟩ := by
  have hn := filterMap_splitOn_namesText names
  have ht := takeWhile_namesText names
  have hs (cs : List Char) : ('/' :: cs).splitOn '/' = [] :: cs.splitOn '/' := by
    rw [List.splitOn, List.splitOnP_cons_eq_if_modifyHead, if_pos (by decide), List.splitOn]
  have hw (cs : List Char) : ('/' :: cs).takeWhile (· = '/') = '/' :: cs.takeWhile (· = '/') := by
    rw [List.takeWhile_cons_of_pos (by decide)]
  cases a with
  | here => simp only [ofString, Anchor.slashes, String.toList_ofList, List.nil_append, hn, ht]; rfl
  | root =>
      simp only [ofString, Anchor.slashes, String.toList_ofList, List.cons_append, List.nil_append,
        hs, hw, hn, ht, List.filterMap_cons, ofChars?_nil]
      rfl
  | doubleRoot =>
      simp only [ofString, Anchor.slashes, String.toList_ofList, List.cons_append, List.nil_append,
        hs, hw, hn, ht, List.filterMap_cons, ofChars?_nil]
      rfl

theorem ofString_text (p : Path) : ofString p.text = p := by
  unfold text
  split
  · rename_i h
    rw [h]
    decide
  · exact ofString_slashes p.anchor p.names

theorem text_inj {p q : Path} : p.text = q.text ↔ p = q :=
  ⟨fun h => by rw [← ofString_text p, h, ofString_text], fun h => by rw [h]⟩

end Path

end LayeredConfig
