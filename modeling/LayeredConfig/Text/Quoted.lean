import LayeredConfig.Text.Hex
import LayeredConfig.Text.Unprintable

namespace LayeredConfig.Text

/-- Single marks, unless the text holds a single mark and no double one. -/
def quotationMark (cs : List Char) : Char :=
  if '\x27' ∈ cs ∧ '\x22' ∉ cs then '\x22' else '\x27'

def escape (mark c : Char) : List Char :=
  if c = mark ∨ c = '\\' then ['\\', c]
  else if c = '\n' then ['\\', 'n']
  else if c = '\r' then ['\\', 'r']
  else if c = '\t' then ['\\', 't']
  else if isUnprintable c then
    if c.toNat < 0x100 then '\\' :: 'x' :: hexDigits 2 c.toNat
    else if c.toNat < 0x10000 then '\\' :: 'u' :: hexDigits 4 c.toNat
    else '\\' :: 'U' :: hexDigits 8 c.toNat
  else [c]

def quoted (s : String) : String :=
  let mark := quotationMark s.toList
  String.ofList (mark :: s.toList.flatMap (escape mark) ++ [mark])

theorem escape_of_visible {mark c : Char} (hmark : c ≠ mark) (hslash : c ≠ '\\')
    (h : isUnprintable c = false) : escape mark c = [c] := by
  have hn : c ≠ '\n' := by rintro rfl; revert h; decide
  have hr : c ≠ '\r' := by rintro rfl; revert h; decide
  have ht : c ≠ '\t' := by rintro rfl; revert h; decide
  simp [escape, hmark, hslash, hn, hr, ht, h]

end LayeredConfig.Text
