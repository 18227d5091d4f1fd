import LayeredConfig.Diagnostic
import LayeredConfig.FileTree

namespace LayeredConfig

structure Publication where
  document : Location
  version : Int
  diagnostics : List Diagnostic
deriving DecidableEq, Repr

/-- One entry for each document, in the order in which the documents came. -/
structure Publications where
  entries : List Publication
deriving DecidableEq, Repr

namespace Publications

def empty : Publications := ⟨[]⟩

def get? (ps : Publications) (document : Location) : Option Publication :=
  ps.entries.find? (·.document = document)

def version? (ps : Publications) (document : Location) : Option Int :=
  (ps.get? document).map (·.version)

def diagnostics (ps : Publications) (document : Location) : List Diagnostic :=
  ((ps.get? document).map (·.diagnostics)).getD []

def documents (ps : Publications) : List Location := ps.entries.map (·.document)

/-- A document that is on show keeps its place. -/
def putIn (p : Publication) : List Publication → List Publication
  | [] => [p]
  | q :: qs => if q.document = p.document then p :: qs else q :: putIn p qs

def put (ps : Publications) (p : Publication) : Publications := ⟨putIn p ps.entries⟩

def accepts (ps : Publications) (p : Publication) : Bool :=
  match ps.version? p.document with
  | none => true
  | some version => version ≤ p.version

def publish (ps : Publications) (p : Publication) : Publications × Bool :=
  if ps.accepts p then (ps.put p, true) else (ps, false)

def clear (ps : Publications) (document : Location) : Publications :=
  ⟨ps.entries.filter (·.document ≠ document)⟩

theorem get?_put (ps : Publications) (p : Publication) (document : Location) :
    (ps.put p).get? document = if document = p.document then some p else ps.get? document := by
  rcases ps with ⟨qs⟩
  unfold put get?
  induction qs with
  | nil => grind [putIn]
  | cons q qs ih => grind [putIn]

theorem get?_clear (ps : Publications) (document other : Location) :
    (ps.clear document).get? other = if other = document then none else ps.get? other := by
  rcases ps with ⟨qs⟩
  unfold clear get?
  induction qs with
  | nil => simp
  | cons q qs ih => grind

end Publications

end LayeredConfig
