import LayeredConfig.FileTree

namespace LayeredConfig

/-- The path one name further. A step back takes away the last name; where none is left, a relative
path leads on outwards. -/
def Path.step (p : Path) (name : Name) : Path :=
  if name = .up ∧ ¬(p.isRelative ∧ p.names.getLast?.all (· = .up)) then
    { p with names := p.names.dropLast }
  else { p with names := p.names ++ [name] }

def Name.mostBytes : Nat := 255

def Path.mostBytes : Nat := 4095

def Name.fits (n : Name) : Bool := n.text.utf8ByteSize ≤ mostBytes

def Path.fits (p : Path) : Bool := p.text.utf8ByteSize ≤ mostBytes

inductive Obstacle
  | missing
  | notDirectory
  | tooLong
  | loop
deriving DecidableEq, Repr

structure LinkEnd where
  path : Path
  links : Nat
deriving DecidableEq, Repr

/-- A walk tells where it is by a path from where it began, or from the root once a link has led there.
`links` counts the links that were followed, and `seen` lists them as they were told; those that are
still being followed have no end yet. A walk is lost once a link has led back to itself, and from there
on only names count. -/
structure Walk where
  path : Path
  obstacle : Option Obstacle
  links : Nat
  seen : List (Path × Option LinkEnd)
  lost : Bool
deriving DecidableEq, Repr

namespace Walk

def start (p : Path) : Walk := ⟨p, none, 0, [], false⟩

def block (w : Walk) (o : Option Obstacle) : Walk := { w with obstacle := w.obstacle.or o }

def ask (w : Walk) (name : Name) : Walk := w.block (if name.fits then none else some .tooLong)

def mostLinks : Nat := 40

/-- A walk that follows more links than that is taken for a loop. -/
def countLinks (w : Walk) (n : Nat) : Walk :=
  { w.block (if w.links + n ≤ mostLinks then none else some .loop) with links := w.links + n }

def see (w : Walk) (link : Path) (finish : Option LinkEnd) : Walk :=
  { w with seen := (link, finish) :: w.seen }

def lose (w : Walk) : Walk := { w.block (some .loop) with lost := true }

def toRoot (w : Walk) : Walk := { w with path := .ofLocation [] }

/-- What stands behind two slashes is told from the root if the walk got lost right before them. -/
def passSlashes (w : Walk) (lostBefore doubled : Bool) : Walk :=
  if w.lost ∧ ¬lostBefore ∧ doubled then w.toRoot else w

end Walk

namespace FileTree

variable (t : FileTree)

def locate (p : Path) : Location :=
  p.names.foldl (fun l name => if name = .up then l.dropLast else l ++ [name])
    (if p.isRelative then t.here else [])

/-- Why no step can be taken from `l`, be it down or up. -/
def barrier (l : Location) : Option Obstacle :=
  match t.find? l with
  | some .directory => none
  | some _ => some .notDirectory
  | none => some .missing

/-- The step to `name`. A link whose end is known need not be followed once more. -/
def follow : Nat → Walk → Name → Walk
  | depth, w, name =>
      let w := (w.block (t.barrier (t.locate w.path))).ask name
      let next := w.path.step name
      if w.lost ∨ name = .up then { w with path := next }
      else match t.find? (t.locate next), w.seen.lookup next, depth with
        | some (.link _), some (some known), _ =>
            { w.countLinks known.links with path := known.path }
        | some (.link link), none, depth + 1 =>
            let v := (w.countLinks 1).see next none
            let v := link.steps.foldl (fun v s => (follow depth v s.name).passSlashes v.lost s.doubled)
              (if link.isRelative then v else v.toRoot)
            let v := if link.directory then v.block (t.barrier (t.locate v.path)) else v
            v.see next (some ⟨v.path, v.links - w.links⟩)
        | some (.link _), _, _ => { w with path := next }.lose
        | _, _, _ => { w with path := next }

/-- One and the same link can be told from the root, and from the working directory by as many steps
back as there are directories around it. Not more links than can be told lead to further ones without
coming back to one of them. -/
def depth : Nat := t.linkCount * (t.here.length + 2)

def walk (p : Path) : Walk :=
  p.names.foldl (t.follow t.depth) (.start (if p.isRelative then ⟨.here, []⟩ else .ofLocation []))

def destination (p : Path) : Location := t.locate (t.walk p).path

def obstacle? (p : Path) : Option Obstacle := if p.fits then (t.walk p).obstacle else some .tooLong

def node? (p : Path) : Except Obstacle Node :=
  match t.obstacle? p, t.find? (t.destination p) with
  | some o, _ => .error o
  | none, some n => .ok n
  | none, none => .error .missing

def place (p : Path) : Location :=
  t.destination { p with names := p.names.dropLast } ++ p.names.getLast?.toList

/-- A file or directory is written where its path leads, a link where its path names it. -/
def writeTo (p : Path) : Node → FileTree
  | .file bytes => t.write (t.destination p) (.file bytes)
  | .directory => t.makeDirectory (t.destination p)
  | .link link => t.write (t.place p) (.link link)

def removeAt (p : Path) : FileTree := t.remove (t.place p)

theorem node?_eq_ok_iff {p : Path} {n : Node} :
    t.node? p = .ok n ↔ t.obstacle? p = none ∧ t.find? (t.destination p) = some n := by
  simp only [node?]
  split <;> simp_all

end FileTree

end LayeredConfig
