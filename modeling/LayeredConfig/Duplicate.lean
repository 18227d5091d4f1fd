import LayeredConfig.Issue

namespace LayeredConfig.Duplicate

variable (root : Path)

/-- The issue of one place of a line; `others` are its other places. -/
def issueAt (others : List Directive) (d : Directive) : Issue :=
  let places := ", ".intercalate (others.map (·.location root))
  .ofDirective d .duplicateLine s!"Duplicate line '{d.text}'. Also on {places}."

def group (found : List Directive) : List Issue :=
  if found.length < 2 then [] else found.mapIdx fun i d => issueAt root (found.eraseIdx i) d

/-- Lines are taken in the order of their first places. -/
def issues (ds : List Directive) : List Issue :=
  let judged := ds.filter (·.isJudged)
  (judged.map (·.text)).eraseDups.flatMap fun text => group root (judged.filter (·.text = text))

end LayeredConfig.Duplicate
