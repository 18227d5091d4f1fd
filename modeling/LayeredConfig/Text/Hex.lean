namespace LayeredConfig.Text

def hexDigits (width n : Nat) : List Char := (Nat.toDigits 16 n).leftpad width '0'

theorem width_le_length_hexDigits (width n : Nat) : width ≤ (hexDigits width n).length := by
  simp only [hexDigits, List.length_leftpad]
  omega

end LayeredConfig.Text
