namespace LayeredConfig

inductive Concur {ε α β : Type} (r : α → β → Prop) : Except ε α → Except ε β → Prop
  | error (e : ε) : Concur r (.error e) (.error e)
  | ok {a : α} {b : β} (h : r a b) : Concur r (.ok a) (.ok b)

namespace Concur

variable {ε ε' α β γ δ : Type} {r : α → β → Prop} {x : Except ε α} {y : Except ε β}

instance [DecidableEq ε] [∀ a b, Decidable (r a b)] : Decidable (Concur r x y) :=
  match x, y with
  | .error e, .error e' =>
      decidable_of_iff (e = e') ⟨fun h => h ▸ .error e, fun h => by cases h; rfl⟩
  | .ok a, .ok b => decidable_of_iff (r a b) ⟨.ok, fun h => by cases h; assumption⟩
  | .error _, .ok _ | .ok _, .error _ => .isFalse nofun

theorem exists_ok {a : α} (h : Concur r (.ok a) y) : ∃ b, y = .ok b ∧ r a b := by
  cases h with
  | ok h => exact ⟨_, rfl, h⟩

theorem mapError (h : Concur r x y) (f : ε → ε') : Concur r (x.mapError f) (y.mapError f) := by
  cases h with
  | error e => exact .error (f e)
  | ok h => exact .ok h

theorem bind_eq (h : Concur r x y) {f : α → Except ε γ} {g : β → Except ε γ}
    (hfg : ∀ a b, r a b → f a = g b) : x >>= f = y >>= g := by
  cases h with
  | error e => rfl
  | ok h => exact hfg _ _ h

theorem bind {s : γ → δ → Prop} (h : Concur r x y) {f : α → Except ε γ} {g : β → Except ε δ}
    (hfg : ∀ a b, r a b → Concur s (f a) (g b)) : Concur s (x >>= f) (y >>= g) := by
  cases h with
  | error e => exact .error e
  | ok h => exact hfg _ _ h

end Concur

end LayeredConfig
