import LayeredConfig.Proofs.Hierarchy.Renumbering

namespace LayeredConfig

/-- A line of the document, at depth zero, moves `n` lines down; those of other files stay. -/
def Directive.moveDown (n : Nat) (d : Directive) : Directive :=
  if d.depth = 0 then { d with line := d.line + n } else d

def Issue.moveDown (root : Location) (n : Nat) (i : Issue) : Issue :=
  if i.file = .ofLocation root then { i with line := i.line + n } else i

def Item.moveDown (root : Location) (n : Nat) : Item → Item
  | .directive d => .directive (d.moveDown n)
  | .issue i => .issue (i.moveDown root n)
  | .failure e => .failure e

/-- What one document comes to and then another, the second `n` lines further down. -/
def Stream.followedBy (n : Nat) (a b : Stream) : Stream where
  root := a.root
  directives := a.directives ++ b.directives.map (Directive.moveDown n)
  issues := a.issues ++ b.issues.map (Issue.moveDown b.root n)

theorem Item.renumber_add (root : Location) (n : Nat) : renumber root (· + n) = moveDown root n := by
  funext x
  cases x <;> rfl

namespace Stream

variable {s : Settings} {t : FileTree} (root : Location)

theorem expandLine_moveDown (raw : String) (k n : Nat) :
    expandLine s t [] root raw (k + n) = (expandLine s t [] root raw k).map (Item.moveDown root n) := by
  rw [← Item.renumber_add]
  exact expandLine_renumber root raw (Int.natCast_add k n)

theorem expand_append (first second : List String) :
    expand s t [] root (first ++ second) =
      expand s t [] root first ++ (expand s t [] root second).map (Item.moveDown root first.length) := by
  simp only [expand_eq_flatMap]
  rw [List.zipIdx_append, List.flatMap_append, Nat.add_comm 1, ← List.map_snd_add_zipIdx_eq_zipIdx,
    List.flatMap_map, List.map_flatMap]
  simp only [Prod.map_fst, Prod.map_snd, id_eq, expandLine_moveDown]

theorem items_append (first second : String) :
    items s t root (first ++ "\n" ++ second) =
      items s t root first ++ (items s t root second).map (Item.moveDown root (Text.lines first).length) := by
  rw [items, Text.lines_append_newline, expand_append, items, items]

theorem ofText_append (first second : String) :
    ofText s t root (first ++ "\n" ++ second) =
      (ofText s t root first).followedBy (Text.lines first).length (ofText s t root second) := by
  simp only [ofText, ofItems, followedBy, items_append, List.filterMap_append, ← Item.renumber_add,
    Item.filterMap_directive?_renumber, Item.filterMap_issue?_renumber]
  rfl

theorem failure?_append (first second : String) :
    failure? s t root (first ++ "\n" ++ second) =
      (failure? s t root first).or (failure? s t root second) := by
  rw [failure?, items_append, List.findSome?_append, ← Item.renumber_add,
    Item.findSome?_failure?_renumber, failure?, failure?]

end Stream

namespace Document

/-- A text and a text after it come to what each comes to by itself, and what fails for either fails for
both together. -/
theorem stream_followedBy (s : Settings) (t : FileTree) (path : Path) (first second : String) :
    stream s t path (some (first ++ "\n" ++ second)) = do
      let a ← stream s t path (some first)
      let b ← stream s t path (some second)
      return a.followedBy (Text.lines first).length b := by
  cases hl : locate t path with
  | error e =>
      simp only [stream, expansion, hl]
      rfl
  | ok root =>
      have hstream (text : String) : stream s t path (some text) =
          Hierarchy.settle ⟨s, t, root, text⟩ (Stream.ofText s t root text) :=
        Hierarchy.FoundAt.stream (h := ⟨s, t, root, text⟩) ⟨hl, rfl⟩
      simp only [hstream, Hierarchy.settle, Hierarchy.failure?, Stream.failure?_append,
        Stream.ofText_append]
      cases Stream.failure? s t root first <;> cases Stream.failure? s t root second <;> rfl

end Document

end LayeredConfig
