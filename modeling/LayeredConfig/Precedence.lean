import LayeredConfig.Directive

namespace LayeredConfig.Precedence

def precedes (a b : Directive) : Bool :=
  b.depth < a.depth || a.depth = b.depth &&
    (a.line < b.line || a.line = b.line && a.file.text ≤ b.file.text)

def sameLine (a b : Directive) : Bool := a.anchor = b.anchor

def order (ds : List Directive) : List Directive := (ds.mergeSort precedes).eraseDupsBy sameLine

theorem precedes_total (a b : Directive) : precedes a b || precedes b a := by
  have := Std.le_total (a := a.file.text) (b := b.file.text)
  simp only [precedes, Bool.or_eq_true, Bool.and_eq_true, decide_eq_true_eq]
  grind

theorem precedes_trans {a b c : Directive} (hab : precedes a b) (hbc : precedes b c) :
    precedes a c := by
  have := Std.le_trans (a := a.file.text) (b := b.file.text) (c := c.file.text)
  simp only [precedes, Bool.or_eq_true, Bool.and_eq_true, decide_eq_true_eq] at *
  grind

@[simp]
theorem order_nil : order [] = [] := by simp [order]

end LayeredConfig.Precedence
