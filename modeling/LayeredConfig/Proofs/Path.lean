import LayeredConfig.Path

namespace LayeredConfig

namespace Text

theorem toString_nat_inj {m n : Nat} : toString m = toString n ↔ m = n := by
  refine ⟨fun h => ?_, congrArg toString⟩
  have hdigits : Nat.toDigits 10 m = Nat.toDigits 10 n := by
    rw [← Nat.toList_repr, ← Nat.toList_repr]
    exact congrArg String.toList h
  calc
    m = Nat.ofDigitChars 10 (Nat.toDigits 10 m) 0 := Nat.ofDigitChars_ten_toDigits.symm
    _ = Nat.ofDigitChars 10 (Nat.toDigits 10 n) 0 := by rw [hdigits]
    _ = n := Nat.ofDigitChars_ten_toDigits

theorem isDigit_of_mem_toString {n : Nat} {c : Char} (hc : c ∈ (toString n).toList) : c.isDigit := by
  have hdigits : (toString n).toList = Nat.toDigits 10 n := Nat.toList_repr
  exact Nat.isDigit_of_mem_toDigits (Nat.succ_pos 9) (Nat.le_refl 10) (hdigits ▸ hc)

theorem toString_int (n : Int) :
    toString n = if 0 ≤ n then toString n.toNat else "-" ++ toString (-n).toNat :=
  Int.toString_eq_repr.trans Int.repr_eq_if

theorem notMem_toString_int (n : Int) : ':' ∉ (toString n).toList := by
  have hdigits : ∀ m : Nat, ':' ∉ (toString m).toList :=
    fun m hm => absurd (isDigit_of_mem_toString hm) (by decide)
  rw [toString_int]
  split
  · exact hdigits _
  · rw [String.toList_append, List.mem_append, not_or]
    exact ⟨by decide, hdigits _⟩

theorem toString_int_inj {m n : Int} : toString m = toString n ↔ m = n := by
  refine ⟨fun h => ?_, congrArg toString⟩
  have hsign : ∀ k l : Nat, toString k ≠ "-" ++ toString l := fun k l he =>
    absurd (isDigit_of_mem_toString (n := k) (c := '-') (by simp [he])) (by decide)
  rw [toString_int, toString_int] at h
  split at h <;> split at h
  · have := toString_nat_inj.1 h
    omega
  · exact absurd h (hsign _ _)
  · exact absurd h.symm (hsign _ _)
  · have := toString_nat_inj.1 (String.append_right_inj _ |>.1 h)
    omega

theorem append_cons_inj {c : Char} {xs xs' ys ys' : List Char} (hys : c ∉ ys) (hys' : c ∉ ys')
    (h : xs ++ c :: ys = xs' ++ c :: ys') : xs = xs' ∧ ys = ys' := by
  obtain ⟨between, hx, hy⟩ | ⟨between, hx, hy⟩ := List.append_eq_append_iff.1 h
  · cases between with
    | nil => simp_all
    | cons d between =>
        obtain ⟨-, rfl⟩ := List.cons.inj hy
        simp at hys
  · cases between with
    | nil => simp_all
    | cons d between =>
        obtain ⟨-, rfl⟩ := List.cons.inj hy
        simp at hys'

end Text

namespace Path

variable {root p q : Path} {m n : Int}

theorem below?_eq_some_iff :
    below? root p = some q ↔ q.anchor = .here ∧ p = ⟨root.anchor, root.names ++ q.names⟩ := by
  unfold below?
  constructor
  · intro h
    split at h
    · rename_i hp
      obtain ⟨names, hnames⟩ := hp.2
      cases h
      refine ⟨rfl, ?_⟩
      rw [← hnames, List.drop_left, hnames, ← hp.1]
    · cases h
  · rintro ⟨ha, rfl⟩
    rw [if_pos ⟨rfl, List.prefix_append _ _⟩, List.drop_left, ← ha]

theorem join_of_below? (h : below? root p = some q) : root.join q = p := by
  obtain ⟨hanchor, rfl⟩ := below?_eq_some_iff.1 h
  simp [join, isRelative, hanchor]

theorem join_display (hp : p.anchor ≠ .here) : root.join (ofString (display root p)) = p := by
  rw [display, ofString_text]
  cases hbelow : below? root p with
  | none => simp [join, isRelative, hp]
  | some q => exact join_of_below? hbelow

theorem display_inj (hp : p.anchor ≠ .here) (hq : q.anchor ≠ .here) :
    display root p = display root q ↔ p = q := by
  refine ⟨fun h => ?_, fun h => by rw [h]⟩
  calc
    p = root.join (ofString (display root p)) := (join_display hp).symm
    _ = root.join (ofString (display root q)) := by rw [h]
    _ = q := join_display hq

theorem isRelative_ofString (text : String) :
    (ofString text).isRelative ↔ text.toList.head? ≠ some '/' := by
  rw [isRelative, ofString, decide_eq_true_iff]
  cases text.toList with
  | nil => simp [Anchor.ofCount]
  | cons c cs =>
      by_cases hc : c = '/'
      · rw [List.takeWhile_cons_of_pos (by simpa using hc)]
        simp only [hc, List.length_cons, List.head?_cons, ne_eq, not_true, iff_false]
        unfold Anchor.ofCount
        split <;> simp_all
      · rw [List.takeWhile_cons_of_neg (by simpa using hc)]
        simp [hc, Anchor.ofCount]

theorem isRelative_display_iff (hp : p.anchor ≠ .here) :
    (ofString (display root p)).isRelative ↔ ∃ names, p = root.join ⟨.here, names⟩ := by
  rw [display, ofString_text]
  cases hbelow : below? root p with
  | none =>
      simp only [Option.getD_none, isRelative, hp, decide_false, Bool.false_eq_true, false_iff]
      rintro ⟨names, rfl⟩
      rw [below?_join] at hbelow
      cases hbelow
  | some q =>
      have hanchor : q.anchor = .here := (below?_eq_some_iff.1 hbelow).1
      simp only [Option.getD_some, isRelative, hanchor, decide_true, true_iff]
      exact ⟨q.names, by rw [← hanchor, join_of_below? hbelow]⟩

theorem exists_join_iff :
    (∃ names, p = root.join ⟨.here, names⟩) ↔
      p = root ∨ ∃ name names, p = root.join ⟨.here, name :: names⟩ := by
  have hroot : root.join ⟨.here, []⟩ = root := by simp [join, isRelative]
  constructor
  · rintro ⟨names, rfl⟩
    cases names with
    | nil => exact .inl hroot
    | cons name names => exact .inr ⟨name, names, rfl⟩
  · rintro (rfl | ⟨name, names, rfl⟩)
    · exact ⟨[], hroot.symm⟩
    · exact ⟨name :: names, rfl⟩

theorem toList_location (root p : Path) (n : Int) :
    (location root p n).toList = (display root p).toList ++ ':' :: (toString n).toList := by
  change (display root p ++ ":" ++ toString n).toList = _
  rw [String.toList_append, String.toList_append, List.append_assoc]
  rfl

theorem location_inj (hp : p.anchor ≠ .here) (hq : q.anchor ≠ .here) :
    location root p m = location root q n ↔ p = q ∧ m = n := by
  constructor
  · intro h
    have h := congrArg String.toList h
    rw [toList_location, toList_location] at h
    obtain ⟨hd, hn⟩ := Text.append_cons_inj (Text.notMem_toString_int m) (Text.notMem_toString_int n) h
    exact ⟨(display_inj hp hq).1 (String.ext hd), Text.toString_int_inj.1 (String.ext hn)⟩
  · rintro ⟨rfl, rfl⟩
    rfl

/-- A place in a message tells one line of one file. The file is told relative to the root just where it is the
root or lies below it, by whole names, and either way it is found again from the root. -/
theorem location_tells_line (root : Path) {p q : Path} (hp : p.anchor ≠ .here) (hq : q.anchor ≠ .here) (m n : Int) :
    (location root p m = location root q n → p = q ∧ m = n) ∧
      ((display root p).toList.head? ≠ some '/' ↔
        p = root ∨ ∃ name names, p = root.join ⟨.here, name :: names⟩) ∧
      root.join (ofString (display root p)) = p := by
  refine ⟨(location_inj hp hq).1, ?_, join_display hp⟩
  rw [← isRelative_ofString, isRelative_display_iff hp, exists_join_iff]

/-- A name may end like a place, and a directory beside the root may begin like it. -/
theorem beside_location_tells_line :
    let root := ofString "/work"
    let p := ofString "/work.d/a:1"
    let q := ofString "/work/a"
    (p.anchor ≠ .here ∧ q.anchor ≠ .here) ∧ location root p 2 ≠ location root q 12 ∧
      (display root p).toList.head? = some '/' ∧ (display root q).toList.head? ≠ some '/' := by
  intro root p q
  have hp : p.anchor ≠ .here := by decide +kernel
  have hq : q.anchor ≠ .here := by decide +kernel
  have hfirst : p.names.head? ≠ root.names.head? := by decide +kernel
  obtain ⟨hinj, hbeside, -⟩ := location_tells_line root hp hq 2 12
  obtain ⟨-, hbelow, -⟩ := location_tells_line root hq hp 12 2
  refine ⟨⟨hp, hq⟩, fun h => absurd (hinj h).2 (by decide), ?_, hbelow.2 (.inr ⟨⟨"a", by decide⟩, [], ?_⟩)⟩
  · refine Decidable.byContradiction fun hrelative => ?_
    obtain h | ⟨name, names, h⟩ := hbeside.1 hrelative
    · exact hfirst (by rw [h])
    · exact hfirst (by rw [h]; rfl)
  · decide +kernel

end Path

end LayeredConfig
