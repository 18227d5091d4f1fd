import LayeredConfig.Text.Ranges

namespace LayeredConfig.Text

/-- The spaces of Unicode, and the control characters that separate words, lines or records. -/
def blanks : Ranges :=
  [(0x09, 0x0d), (0x1c, 0x20), (0x85, 0x85), (0xa0, 0xa0), (0x1680, 0x1680), (0x2000, 0x200a),
    (0x2028, 0x2029), (0x202f, 0x202f), (0x205f, 0x205f), (0x3000, 0x3000)]

def isBlank (c : Char) : Bool := blanks.has c

def dropEndWhile (p : Char → Bool) (cs : List Char) : List Char :=
  (cs.reverse.dropWhile p).reverse

def trimChars (cs : List Char) : List Char :=
  dropEndWhile isBlank (cs.dropWhile isBlank)

def trim (s : String) : String := String.ofList (trimChars s.toList)

@[simp]
theorem toList_trim (s : String) : (trim s).toList = trimChars s.toList := by
  simp [trim]

theorem dropEndWhile_cons (p : Char → Bool) (c : Char) (cs : List Char) :
    dropEndWhile p (c :: cs) = if dropEndWhile p cs = [] ∧ p c then [] else c :: dropEndWhile p cs := by
  unfold dropEndWhile
  rw [List.reverse_cons, List.dropWhile_append]
  cases hd : cs.reverse.dropWhile p with
  | nil => cases hc : p c <;> simp [hc]
  | cons d ds => simp

theorem dropWhile_dropEndWhile (p : Char → Bool) (cs : List Char) :
    (dropEndWhile p cs).dropWhile p = dropEndWhile p (cs.dropWhile p) := by
  induction cs with
  | nil => rfl
  | cons c cs ih =>
      by_cases hc : p c
      · rw [List.dropWhile_cons_of_pos hc, ← ih, dropEndWhile_cons]
        by_cases hnil : dropEndWhile p cs = []
        · simp [hnil, hc]
        · rw [if_neg (fun h => hnil h.1), List.dropWhile_cons_of_pos hc]
      · rw [List.dropWhile_cons_of_neg hc, dropEndWhile_cons, if_neg (fun h => hc h.2),
          List.dropWhile_cons_of_neg hc]

theorem dropWhile_dropWhile (p : Char → Bool) (cs : List Char) :
    (cs.dropWhile p).dropWhile p = cs.dropWhile p := by
  induction cs with
  | nil => rfl
  | cons c cs ih => by_cases hc : p c <;> simp [hc, ih]

theorem dropEndWhile_dropEndWhile (p : Char → Bool) (cs : List Char) :
    dropEndWhile p (dropEndWhile p cs) = dropEndWhile p cs := by
  rw [dropEndWhile, dropEndWhile, List.reverse_reverse, dropWhile_dropWhile]

theorem trimChars_dropEndWhile (cs : List Char) :
    trimChars (dropEndWhile isBlank cs) = trimChars cs := by
  rw [trimChars, dropWhile_dropEndWhile, dropEndWhile_dropEndWhile, trimChars]

theorem trimChars_trimChars (cs : List Char) : trimChars (trimChars cs) = trimChars cs := by
  calc trimChars (trimChars cs) = trimChars ((dropEndWhile isBlank cs).dropWhile isBlank) := by
        rw [dropWhile_dropEndWhile, ← trimChars]
    _ = trimChars (dropEndWhile isBlank cs) := by rw [trimChars, dropWhile_dropWhile, trimChars]
    _ = trimChars cs := trimChars_dropEndWhile cs

theorem trim_trim (s : String) : trim (trim s) = trim s := by
  rw [trim, toList_trim, trimChars_trimChars, trim]

theorem isBlank_of_isWhitespace {c : Char} (h : c.isWhitespace) : isBlank c := by
  simp only [Char.isWhitespace, Bool.or_eq_true, decide_eq_true_eq] at h
  rcases h with ((rfl | rfl) | rfl) | rfl <;> decide

end LayeredConfig.Text
