namespace LayeredConfig.Text

abbrev Ranges := List (Nat × Nat)

def Ranges.has (rs : Ranges) (c : Char) : Bool :=
  rs.any fun (low, high) => low ≤ c.toNat && c.toNat ≤ high

theorem Ranges.has_cons (low high : Nat) (rs : Ranges) (c : Char) :
    Ranges.has ((low, high) :: rs) c = ((low ≤ c.toNat && c.toNat ≤ high) || rs.has c) := rfl

end LayeredConfig.Text
