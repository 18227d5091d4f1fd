import LayeredConfig.Text.Lines

namespace LayeredConfig

/-- A run takes as many characters as it can if it is greedy, and else as few. -/
inductive Pattern
  | start
  | finish
  | one (accepts : Char → Bool)
  | run (greedy : Bool) (accepts : Char → Bool)
  | maybe (p : Pattern)
  | group (p : Pattern)
  | followed (p q : Pattern)

namespace Pattern

instance : Append Pattern := ⟨followed⟩

/-- How far a text is read, and what the group of the pattern has caught of it. -/
structure Place where
  behind : List Char
  ahead : List Char
  caught : Option (List Char)
deriving DecidableEq, Repr

namespace Place

def ofText (text : String) : Place := ⟨[], text.toList, none⟩

def hold (a b : Place) : Place := { b with caught := some (b.behind.drop a.behind.length) }

end Place

def stops (greedy : Bool) (accepts : Char → Bool) (caught : Option (List Char)) (behind : List Char) :
    List Char → List Place
  | [] => [⟨behind, [], caught⟩]
  | c :: ahead =>
      let further := if accepts c then stops greedy accepts caught (behind ++ [c]) ahead else []
      if greedy then further ++ [⟨behind, c :: ahead, caught⟩] else ⟨behind, c :: ahead, caught⟩ :: further

/-- The places that a pattern may lead to, the preferred ones first. Behind the end of a text there may be a
newline. -/
def ways : Pattern → Place → List Place
  | start, a => if a.behind = [] then [a] else []
  | finish, a => if a.ahead = [] ∨ a.ahead = ['\n'] then [a] else []
  | one accepts, a =>
      match a.ahead with
      | [] => []
      | c :: ahead => if accepts c then [⟨a.behind ++ [c], ahead, a.caught⟩] else []
  | run greedy accepts, a => stops greedy accepts a.caught a.behind a.ahead
  | maybe p, a => p.ways a ++ [a]
  | group p, a => (p.ways a).map a.hold
  | followed p q, a => (p.ways a).flatMap q.ways

def caught? (p : Pattern) (text : String) : Option String := do
  let finish ← (p.ways (.ofText text)).head?
  let caught ← finish.caught
  return String.ofList caught

variable {α : Type} {p q : Pattern} {accepts : Char → Bool} {k : Place → Option α} {a : Place}
  {c : Char} {behind ahead : List Char} {caught : Option (List Char)}

/-- Goes on by `k` from the first place from which that is possible. -/
def andThen (p : Pattern) (k : Place → Option α) (a : Place) : Option α := (p.ways a).findSome? k

theorem findSome?_flatMap {β : Type} (as : List β) (f : β → List Place) :
    (as.flatMap f).findSome? k = as.findSome? fun a => (f a).findSome? k := by
  rw [← List.head?_filterMap, List.filterMap_flatMap, List.head?_flatMap]
  simp only [List.head?_filterMap]

@[simp]
theorem andThen_start : start.andThen k a = if a.behind = [] then k a else none := by
  unfold andThen ways
  split <;> simp

@[simp]
theorem andThen_finish : finish.andThen k a = if a.ahead = [] ∨ a.ahead = ['\n'] then k a else none := by
  unfold andThen ways
  split <;> simp

@[simp]
theorem andThen_one_nil : (one accepts).andThen k ⟨behind, [], caught⟩ = none := rfl

@[simp]
theorem andThen_one_cons :
    (one accepts).andThen k ⟨behind, c :: ahead, caught⟩ =
      if accepts c then k ⟨behind ++ [c], ahead, caught⟩ else none := by
  simp only [andThen, ways]
  split <;> simp

@[simp]
theorem andThen_run_nil (greedy : Bool) :
    (run greedy accepts).andThen k ⟨behind, [], caught⟩ = k ⟨behind, [], caught⟩ := by
  simp [andThen, ways, stops]

theorem andThen_run_greedy :
    (run true accepts).andThen k ⟨behind, c :: ahead, caught⟩ =
      (if accepts c then (run true accepts).andThen k ⟨behind ++ [c], ahead, caught⟩ else none).or
        (k ⟨behind, c :: ahead, caught⟩) := by
  unfold andThen ways
  rw [stops]
  cases accepts c <;> simp [List.findSome?_append]

theorem andThen_run_lazy :
    (run false accepts).andThen k ⟨behind, c :: ahead, caught⟩ =
      (k ⟨behind, c :: ahead, caught⟩).or
        (if accepts c then (run false accepts).andThen k ⟨behind ++ [c], ahead, caught⟩ else none) := by
  unfold andThen ways
  rw [stops]
  cases accepts c <;> cases hk : k ⟨behind, c :: ahead, caught⟩ <;> simp [hk]

@[simp]
theorem andThen_maybe : (maybe p).andThen k a = (p.andThen k a).or (k a) := by
  simp [andThen, ways, List.findSome?_append]

@[simp]
theorem andThen_group : (group p).andThen k a = p.andThen (fun b => k (a.hold b)) a := by
  simp [andThen, ways, List.findSome?_map, Function.comp_def]

@[simp]
theorem andThen_append : (p ++ q).andThen k a = p.andThen (q.andThen k) a :=
  findSome?_flatMap (p.ways a) q.ways

theorem caught?_eq (text : String) :
    p.caught? text =
      (p.andThen (fun b => some b.caught) (.ofText text)).join.map String.ofList := by
  unfold caught? andThen
  cases p.ways (.ofText text) with
  | nil => rfl
  | cons b bs => cases hb : b.caught <;> simp [hb]

end Pattern

end LayeredConfig
