import LayeredConfig.Issue

namespace LayeredConfig.Override

variable (root : Path)

def redefined (previous current : Directive) : Issue :=
  .ofDirective current .redefinedWithoutExclusion <|
    "Redefined without exclusion.\n" ++
    s!"Original value (on {previous.location root})={previous.value}\n" ++
    s!"Redefined value (on {current.location root})={current.value}."

def unnecessary (current : Directive) : Issue :=
  .ofDirective current .unnecessaryRedefinition <|
    s!"Unnecessary redefinition. Value on {current.location root} is the same as the excluded value."

def excludes (d e : Directive) : Bool := e.kind = .exclusion && e.file = d.file

/-- The issue of `d` after the directives `earlier` on the same key, the nearest of them first. -/
def judge (earlier : List Directive) (d : Directive) : Option Issue :=
  if d.kind ≠ .inclusion then none
  else match earlier.find? (·.kind = .inclusion) with
    | none => none
    | some previous =>
        if ¬earlier.any (excludes d) then some (redefined root previous d)
        else
          let since := earlier.takeWhile (·.kind ≠ .inclusion)
          if previous.value = d.value ∧ since.any (excludes d) then some (unnecessary root d) else none

def issuesFrom (earlier : List Directive) : List Directive → List Issue
  | [] => []
  | d :: ds => (judge root (earlier.filter (·.key = d.key)) d).toList ++ issuesFrom (d :: earlier) ds

def issues (ds : List Directive) : List Issue := issuesFrom root [] ds

theorem judge_of_kind {d : Directive} (h : d.kind ≠ .inclusion) (earlier : List Directive) :
    judge root earlier d = none := by
  simp [judge, h]

theorem issuesFrom_append (earlier ds es : List Directive) :
    issuesFrom root earlier (ds ++ es) =
      issuesFrom root earlier ds ++ issuesFrom root (ds.reverse ++ earlier) es := by
  induction ds generalizing earlier with
  | nil => rfl
  | cons d ds ih => simp [issuesFrom, ih]

end LayeredConfig.Override
