import LayeredConfig.Proofs.Line
import LayeredConfig.Proofs.Pattern

namespace LayeredConfig.Line

open Pattern (Place)

variable {cs line : List Char} {c : Char} {a : Place}

/-- The line that a text consists of, if it does not hold more than one. -/
def line? (cs : List Char) : Option (List Char) :=
  let line := Text.dropFinalNewline cs
  if '\n' ∈ line then none else some line

@[simp]
theorem line?_nil : line? [] = some [] := rfl

@[simp]
theorem line?_newline : line? ('\n' :: cs) = if cs = [] then some [] else none := by
  cases cs with
  | nil => rfl
  | cons d cs =>
      simp only [line?, Text.dropFinalNewline, List.getLast?_cons_cons]
      split <;> simp

theorem line?_cons (hc : c ≠ '\n') : line? (c :: cs) = (line? cs).map (c :: ·) := by
  have hdrop : Text.dropFinalNewline (c :: cs) = c :: Text.dropFinalNewline cs := by
    cases cs with
    | nil => simp [Text.dropFinalNewline, hc]
    | cons d cs =>
        simp only [Text.dropFinalNewline, List.getLast?_cons_cons]
        split <;> rfl
  simp only [line?, hdrop, List.mem_cons, hc.symm, false_or]
  split <;> rfl

def isInLine (c : Char) : Bool := c ≠ '\n'

def markerPattern : Pattern := .maybe (.one fun c => c = '#' || c = '!' || c = '-')

def valuePattern : Pattern := .maybe (.one (· = '=') ++ .run true isInLine) ++ .finish

/-- `^[#!-]?(.+?)(?:=.*)?$` -/
def keyPattern : Pattern :=
  .start ++ markerPattern ++ .group (.one isInLine ++ .run false isInLine) ++ valuePattern

def caughtAt (a : Place) : Option (Option (List Char)) := some a.caught

theorem andThen_rest :
    (Pattern.run true isInLine ++ .finish).andThen caughtAt a = (line? a.ahead).map fun _ => a.caught := by
  obtain ⟨behind, ahead, caught⟩ := a
  induction ahead generalizing behind with
  | nil => simp [caughtAt]
  | cons c ahead ih =>
      rw [Pattern.andThen_append, Pattern.andThen_run_greedy, ← Pattern.andThen_append, ih]
      by_cases hc : c = '\n'
      · subst hc
        by_cases hahead : ahead = [] <;> simp [isInLine, caughtAt, hahead]
      · simp [isInLine, hc, line?_cons hc, Function.comp_def]

theorem andThen_value :
    valuePattern.andThen caughtAt a =
      (line? a.ahead).bind fun line => if line.head?.all (· = '=') then some a.caught else none := by
  obtain ⟨behind, ahead, caught⟩ := a
  rw [valuePattern, Pattern.andThen_append, Pattern.andThen_maybe, Pattern.andThen_append]
  cases ahead with
  | nil => simp [caughtAt]
  | cons c ahead =>
      rw [Pattern.andThen_one_cons, ← Pattern.andThen_append, andThen_rest, Pattern.andThen_finish]
      by_cases hc : c = '\n'
      · subst hc
        by_cases hahead : ahead = [] <;> simp [caughtAt, hahead]
      · by_cases hequals : c = '='
        · subst hequals
          cases hline : line? ahead <;> simp [line?_cons hc, hline]
        · cases hline : line? ahead <;> simp [line?_cons hc, hline, hequals, hc]

/-- A lazy run stops in front of the first `=`, as what follows takes all that is behind it. -/
theorem andThen_key (b : Place) :
    (Pattern.run false isInLine).andThen (fun a => valuePattern.andThen caughtAt (b.hold a)) a =
      (line? a.ahead).map fun line =>
        some ((a.behind ++ line.takeWhile (· ≠ '=')).drop b.behind.length) := by
  obtain ⟨behind, ahead, caught⟩ := a
  simp only [andThen_value]
  induction ahead generalizing behind with
  | nil => simp [Place.hold]
  | cons c ahead ih =>
      rw [Pattern.andThen_run_lazy, ih]
      by_cases hc : c = '\n'
      · subst hc
        by_cases hahead : ahead = [] <;> simp [Place.hold, isInLine, hahead]
      · by_cases hequals : c = '='
        · subst hequals
          cases hline : line? ahead <;> simp [Place.hold, line?_cons hc, hline]
        · cases hline : line? ahead <;> simp [Place.hold, line?_cons hc, hline, hequals, isInLine, hc]

def cut? : List Char → Option (List Char)
  | [] => none
  | c :: cs => some (c :: cs.takeWhile (· ≠ '='))

theorem andThen_group :
    (Pattern.group (.one isInLine ++ .run false isInLine)).andThen (valuePattern.andThen caughtAt) a =
      ((line? a.ahead).bind cut?).map some := by
  obtain ⟨behind, ahead, caught⟩ := a
  rw [Pattern.andThen_group, Pattern.andThen_append]
  cases ahead with
  | nil => rfl
  | cons c ahead =>
      rw [Pattern.andThen_one_cons, andThen_key]
      by_cases hc : c = '\n'
      · subst hc
        by_cases hahead : ahead = [] <;> simp [isInLine, cut?, hahead]
      · cases hline : line? ahead <;> simp [line?_cons hc, hline, isInLine, hc, cut?]

theorem keyChars_eq_cut? (cs : List Char) :
    keyChars cs = ((line? cs).bind fun line => cut? (dropMarker line)).getD cs := by
  unfold keyChars line?
  simp only
  split
  · rfl
  · rw [Option.bind_some]
    cases dropMarker (Text.dropFinalNewline cs) <;> rfl

theorem keyChars_eq_andThen (cs : List Char) :
    keyChars cs = (keyPattern.andThen caughtAt ⟨[], cs, none⟩).join.getD cs := by
  rw [keyChars_eq_cut?, keyPattern, Pattern.andThen_append, Pattern.andThen_append, Pattern.andThen_append,
    Pattern.andThen_start, if_pos rfl, markerPattern, Pattern.andThen_maybe, andThen_group]
  cases cs with
  | nil => rfl
  | cons c cs =>
      rw [Pattern.andThen_one_cons, andThen_group]
      change _ = ((if isMarker c then ((line? cs).bind cut?).map some else none).or
        (((line? (c :: cs)).bind cut?).map some)).join.getD (c :: cs)
      by_cases hc : c = '\n'
      · subst hc
        by_cases hcs : cs = [] <;> simp [hcs, isMarker, cut?, dropMarker]
      · rw [line?_cons hc]
        cases line? cs with
        | none => simp
        | some line =>
            -- Only with nothing behind the marker does the pattern go back, and the marker is the key.
            cases line with
            | nil => simp [cut?, dropMarker]
            | cons d line => by_cases hmarker : isMarker c <;> simp [cut?, dropMarker, hmarker]

def IsLine (text line : List Char) : Prop :=
  text = line ++ ['\n'] ∨ text = line ∧ text.getLast? ≠ some '\n'

/-- `rest` is the line without its marker. A marker that stands alone is kept. -/
inductive Unmarked : (line rest : List Char) → Prop
  | marked {c : Char} {cs : List Char} (hc : isMarker c) (hcs : cs ≠ []) : Unmarked (c :: cs) cs
  | alone {c : Char} : Unmarked [c] [c]
  | unmarked {c : Char} {cs : List Char} (hc : ¬isMarker c) : Unmarked (c :: cs) (c :: cs)

/-- `key` is `rest` up to its first `=`, not counting one in the first place. -/
def IsCut (rest key : List Char) : Prop :=
  ∃ c cs more, key = c :: cs ∧ rest = key ++ more ∧ '=' ∉ cs ∧ ∀ d ∈ more.head?, d = '='

theorem isLine_dropFinalNewline (cs : List Char) : IsLine cs (Text.dropFinalNewline cs) := by
  unfold Text.dropFinalNewline
  split
  next h =>
    obtain ⟨line, rfl⟩ := List.getLast?_eq_some_iff.1 h
    exact .inl (by rw [List.dropLast_concat])
  next h => exact .inr ⟨rfl, h⟩

theorem unmarked_dropMarker (h : cs ≠ []) : Unmarked cs (dropMarker cs) := by
  rcases cs with _ | ⟨c, _ | ⟨d, cs⟩⟩
  · exact absurd rfl h
  · exact .alone
  · rw [dropMarker]
    split
    next hc => exact .marked hc (List.cons_ne_nil d cs)
    next hc => exact .unmarked hc

theorem isCut_of_cut? {rest key : List Char} (h : cut? rest = some key) : IsCut rest key := by
  cases rest with
  | nil => cases h
  | cons c cs =>
      cases h
      refine ⟨c, _, cs.dropWhile (· ≠ '='), rfl, ?_, equals_notMem_takeWhile cs, ?_⟩
      · rw [List.cons_append, List.takeWhile_append_dropWhile]
      · intro d hd
        have hstop := List.head?_dropWhile_not (· ≠ '=') cs
        rw [Option.mem_def.1 hd] at hstop
        simpa using hstop

theorem key_eq_self {text : String}
    (h : Text.dropFinalNewline text.toList = [] ∨ '\n' ∈ Text.dropFinalNewline text.toList) : key text = text := by
  have hcut : ((line? text.toList).bind fun line => cut? (dropMarker line)) = none := by
    rcases h with hnil | hmem
    · simp [line?, hnil, dropMarker, cut?]
    · simp [line?, hmem]
  rw [key, keyChars_eq_cut?, hcut, Option.getD_none, String.ofList_toList]

theorem cut?_dropMarker {text : String} (hnil : Text.dropFinalNewline text.toList ≠ [])
    (hmem : '\n' ∉ Text.dropFinalNewline text.toList) :
    cut? (dropMarker (Text.dropFinalNewline text.toList)) = some (key text).toList := by
  rw [key, String.toList_ofList, keyChars_eq_cut?, line?, if_neg hmem, Option.bind_some]
  cases hdrop : dropMarker (Text.dropFinalNewline text.toList) with
  | nil => exact absurd hdrop (dropMarker_ne_nil hnil)
  | cons c cs => rfl

/-- The key is what the pattern catches of a text, or the text itself where the pattern does not match. In other
words: a text that is not one line of something is its own key; else the line is cut, without its marker if there
is more to it, in front of the first `=` that is not in the first place. -/
theorem key_is_caught (text : String) :
    key text = (keyPattern.caught? text).getD text ∧
      ∃ line, IsLine text.toList line ∧
        if line = [] ∨ '\n' ∈ line then key text = text
        else ∃ rest, Unmarked line rest ∧ IsCut rest (key text).toList := by
  constructor
  · rw [Pattern.caught?_eq, key, keyChars_eq_andThen]
    change _ = (((keyPattern.andThen caughtAt ⟨[], text.toList, none⟩).join).map String.ofList).getD text
    cases (keyPattern.andThen caughtAt ⟨[], text.toList, none⟩).join with
    | none => exact String.ofList_toList
    | some key => rfl
  · refine ⟨Text.dropFinalNewline text.toList, isLine_dropFinalNewline _, ?_⟩
    split
    next h => exact key_eq_self h
    next h =>
      obtain ⟨hnil, hmem⟩ := not_or.1 h
      exact ⟨_, unmarked_dropMarker hnil, isCut_of_cut? (cut?_dropMarker hnil hmem)⟩

example : ["=a=b\n", "-=a", "!\n", "#\n\n"].map keyPattern.caught? = [some "=a", some "=a", some "!", none] := by
  decide +kernel

end LayeredConfig.Line
