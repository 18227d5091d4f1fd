import LayeredConfig.CommandLine.Arguments

namespace LayeredConfig.CommandLine

def IsPlain (a : String) : Prop := Argument.ofString a = .plain a

/-- Arguments that are all options or their values, and that turn the options `o` into others. -/
inductive Gives : List String → Options → Options → Prop
  | nil {o : Options} : Gives [] o o
  | flags {a : String} {verbose : Bool} {args : List String} {o o' : Options}
      (ha : Argument.ofString a = .flags verbose false)
      (hargs : Gives args { o with verbose := o.verbose || verbose } o') : Gives (a :: args) o o'
  | attached {a value : String} {which : Setting} {args : List String} {o o' : Options}
      (ha : Argument.ofString a = .setting which (some value)) (hargs : Gives args (o.set which value) o') :
      Gives (a :: args) o o'
  | separate {a value : String} {which : Setting} {args : List String} {o o' : Options}
      (ha : Argument.ofString a = .setting which none) (hvalue : IsPlain value)
      (hargs : Gives args (o.set which value) o') : Gives (a :: value :: args) o o'

variable {a name value : String} {args names rest : List String} {o o' : Options} {which : Setting}

theorem ofString_endOfOptions : Argument.ofString endOfOptions = .ambiguous := by decide +kernel

theorem ne_endOfOptions (h : Argument.ofString a ≠ .ambiguous) : a ≠ endOfOptions :=
  fun he => h (he ▸ ofString_endOfOptions)

theorem IsPlain.not_ambiguous (h : IsPlain a) : Argument.ofString a ≠ .ambiguous := by
  rw [h]
  exact nofun

theorem Gives.not_ambiguous (h : Gives args o o') : ∀ a ∈ args, Argument.ofString a ≠ .ambiguous := by
  induction h with
  | nil => exact nofun
  | flags ha _ ih => exact List.forall_mem_cons.2 ⟨by simp [ha], ih⟩
  | attached ha _ ih => exact List.forall_mem_cons.2 ⟨by simp [ha], ih⟩
  | separate ha hvalue _ ih =>
      exact List.forall_mem_cons.2 ⟨by simp [ha], List.forall_mem_cons.2 ⟨hvalue.not_ambiguous, ih⟩⟩

theorem takeValue_of_isPlain (h : IsPlain value) : takeValue (value :: args) = some (value, args) := by
  rw [takeValue, if_neg (ne_endOfOptions h.not_ambiguous), h]

theorem readArgs_append (h : Gives args o o') (faulty : Bool) :
    readArgs o faulty (args ++ rest) = readArgs o' faulty rest := by
  induction h with
  | nil => rfl
  | flags ha _ ih =>
      rw [List.cons_append, readArgs, if_neg (ne_endOfOptions (by simp [ha]))]
      simpa [ha] using ih
  | attached ha _ ih =>
      rw [List.cons_append, readArgs, if_neg (ne_endOfOptions (by simp [ha]))]
      simpa [ha] using ih
  | separate ha hvalue _ ih =>
      rw [List.cons_append, List.cons_append, readArgs, if_neg (ne_endOfOptions (by simp [ha]))]
      simp only [ha]
      split
      next h =>
        rw [takeValue_of_isPlain hvalue] at h
        cases h
        exact ih
      next h =>
        rw [takeValue_of_isPlain hvalue] at h
        cases h

namespace Reading

/-- What options leave of a reading: only behind names they make a difference to the names that follow. -/
structure Keeps (r r' : Reading) : Prop where
  plain : r'.plain = r.plain
  faulty : r'.faulty = r.faulty
  closed : r.plain = [] → r'.closed = r.closed

variable {r r' r'' : Reading}

theorem Keeps.trans (h : r.Keeps r') (h' : r'.Keeps r'') : r.Keeps r'' where
  plain := h'.plain.trans h.plain
  faulty := h'.faulty.trans h.faulty
  closed := fun hplain => (h'.closed (h.plain.trans hplain)).trans (h.closed hplain)

theorem keeps_close (r : Reading) (o : Options) : r.Keeps { r.close with options := o } where
  plain := rfl
  faulty := rfl
  closed := fun hplain => by simp [close, hplain]

theorem exists_keeps_of_close {p : Options} {result : Except Request Reading}
    (h : ∃ r', r'.options = o' ∧ Keeps { r.close with options := p } r' ∧ result = r'.ofArgs rest) :
    ∃ r', r'.options = o' ∧ r.Keeps r' ∧ result = r'.ofArgs rest := by
  obtain ⟨r', ho, hkeeps, hresult⟩ := h
  exact ⟨r', ho, (keeps_close r p).trans hkeeps, hresult⟩

theorem exists_keeps_options (h : Gives args o o') (hr : r.options = o) (rest : List String) :
    ∃ r', r'.options = o' ∧ r.Keeps r' ∧ r.ofArgs (args ++ rest) = r'.ofArgs rest := by
  induction h generalizing r with
  | nil => exact ⟨r, hr, ⟨rfl, rfl, fun _ => rfl⟩, rfl⟩
  | flags ha _ ih =>
      subst hr
      rw [List.cons_append, ofArgs, if_neg (ne_endOfOptions (by simp [ha]))]
      simp only [ha, Bool.false_eq_true, if_false]
      exact exists_keeps_of_close (ih rfl)
  | attached ha _ ih =>
      subst hr
      rw [List.cons_append, ofArgs, if_neg (ne_endOfOptions (by simp [ha]))]
      simp only [ha]
      exact exists_keeps_of_close (ih rfl)
  | separate ha hvalue _ ih =>
      subst hr
      rw [List.cons_append, List.cons_append, ofArgs, if_neg (ne_endOfOptions (by simp [ha]))]
      simp only [ha]
      split
      next h =>
        rw [takeValue_of_isPlain hvalue] at h
        cases h
        exact exists_keeps_of_close (ih rfl)
      next h =>
        rw [takeValue_of_isPlain hvalue] at h
        cases h

theorem ofArgs_names (hclosed : r.closed = false) (hplain : ∀ n ∈ names, IsPlain n) :
    r.ofArgs (names ++ rest) = ofArgs (r.add names) rest := by
  induction names generalizing r with
  | nil => rw [List.nil_append, add, if_neg (by simp [hclosed]), List.append_nil]
  | cons n names ih =>
      -- Names are added one at a time, and the place for them stays open.
      obtain ⟨hn, hnames⟩ := List.forall_mem_cons.1 hplain
      have hadd : (r.add [n]).closed = false := by simp [add, hclosed]
      rw [List.cons_append, ofArgs, if_neg (ne_endOfOptions hn.not_ambiguous), hn]
      simp only
      rw [ih hadd hnames]
      simp [add, hclosed]

/-- The arguments of a command are read without fault, as some names and the options `o`. -/
structure Tells (r : Reading) (o : Options) (names : List String) : Prop where
  options : r.options = o
  plain : r.plain = names
  faulty : r.faulty = false

variable {between behind : List String} {o₁ o₂ : Options}

theorem Keeps.tells_add (h : (start o₁ false).Keeps r) (ho : r.options = o) (names : List String) :
    (r.add names).Tells o names ∧ r.closed = false := by
  have hplain : r.plain = [] := h.plain
  have hclosed : r.closed = false := h.closed rfl
  have hfaulty : r.faulty = false := h.faulty
  refine ⟨⟨?_, ?_, ?_⟩, hclosed⟩
  · simp [add, hclosed, ho]
  · simp [add, hclosed, hplain]
  · simp [add, hclosed, hfaulty]

theorem exists_tells_around (hbetween : Gives between o₁ o₂) (hbehind : Gives behind o₂ o)
    (hnames : ∀ n ∈ names, IsPlain n) :
    ∃ r, (start o₁ false).ofArgs (between ++ (names ++ behind)) = .ok r ∧ r.Tells o names := by
  obtain ⟨r, ho, hkeeps, hread⟩ := exists_keeps_options (r := start o₁ false) hbetween rfl (names ++ behind)
  obtain ⟨htells, hclosed⟩ := hkeeps.tells_add ho names
  obtain ⟨r', ho', hkeeps', hread'⟩ := exists_keeps_options hbehind htells.options []
  refine ⟨r', ?_, ho', hkeeps'.plain.trans htells.plain, hkeeps'.faulty.trans htells.faulty⟩
  rw [hread, ofArgs_names hclosed hnames, ← List.append_nil behind, hread', ofArgs]

theorem exists_tells_atEnd (hbetween : Gives between o₁ o) (names : List String) :
    ∃ r, (start o₁ false).ofArgs (between ++ endOfOptions :: names) = .ok r ∧ r.Tells o names := by
  obtain ⟨r, ho, hkeeps, hread⟩ :=
    exists_keeps_options (r := start o₁ false) hbetween rfl (endOfOptions :: names)
  refine ⟨r.add names, ?_, (hkeeps.tells_add ho names).1⟩
  rw [hread, ofArgs, if_pos rfl]

end Reading

/-- Where names may stand in a command line: between options, or behind the end of all options. -/
inductive Frame (o : Options)
  | around (before between behind : List String) {o₁ o₂ : Options} (hbefore : Gives before .none o₁)
      (hbetween : Gives between o₁ o₂) (hbehind : Gives behind o₂ o)
  | atEnd (before between : List String) {o₁ : Options} (hbefore : Gives before .none o₁)
      (hbetween : Gives between o₁ o)

namespace Frame

def fill : Frame o → (command : String) → (names : List String) → List String
  | around before between behind _ _ _, command, names => before ++ command :: (between ++ (names ++ behind))
  | atEnd before between _ _, command, names => before ++ command :: (between ++ endOfOptions :: names)

/-- Names that begin like an option are taken for names only where no option may follow. -/
def Takes : Frame o → List String → Prop
  | around .., names => ∀ n ∈ names, IsPlain n
  | atEnd .., _ => True

variable {command : String}

theorem isPlain_of_isCommand (h : isCommand command) : IsPlain command := by
  have hplain : ∀ c ∈ ["check", "flatten", "locate"], IsPlain c := by
    unfold IsPlain
    decide +kernel
  exact hplain command (by simpa [isCommand] using h)

theorem readArgs_command (h : isCommand command) (faulty : Bool) :
    readArgs o faulty (command :: args) = readCommand o faulty command args := by
  have hplain := isPlain_of_isCommand h
  rw [readArgs, if_neg (ne_endOfOptions hplain.not_ambiguous), hplain]

theorem ofArgs_eq_readArgs (hargs : ∀ a ∈ args, Argument.ofString a ≠ .ambiguous) (rest : List String)
    (hrest : ∀ a ∈ rest.head?, a = endOfOptions) :
    Request.ofArgs (args ++ rest) = readArgs .none false (args ++ rest) := by
  have hread : (args ++ rest).takeWhile (· ≠ endOfOptions) = args := by
    rw [List.takeWhile_append_of_pos fun a ha => decide_eq_true (ne_endOfOptions (hargs a ha))]
    cases rest with
    | nil => simp
    | cons a rest => simp [hrest a rfl]
  rw [Request.ofArgs, hread, if_neg]
  simpa using hargs

theorem readCommand_of_tells {o₁ : Options} {r : Reading} (h : isCommand command)
    (hread : (Reading.start o₁ false).ofArgs args = .ok r) (htells : r.Tells o names) :
    readCommand o₁ false command args = (Command.of? command names).elim .misuse (.work o) := by
  rw [readCommand, if_neg (not_not_intro h), hread]
  simp only [htells.faulty, htells.plain, htells.options, Bool.false_eq_true, if_false]
  cases Command.of? command names <;> rfl

theorem ofArgs_fill (f : Frame o) (h : isCommand command) (hnames : f.Takes names) :
    Request.ofArgs (f.fill command names) = (Command.of? command names).elim .misuse (.work o) := by
  have hcommand := (isPlain_of_isCommand h).not_ambiguous
  cases f with
  | @around before between behind o₁ o₂ hbefore hbetween hbehind =>
      have hargs : ∀ a ∈ before ++ command :: (between ++ (names ++ behind)), Argument.ofString a ≠ .ambiguous := by
        intro a ha
        simp only [List.mem_append, List.mem_cons] at ha
        obtain ha | rfl | ha | ha | ha := ha
        · exact hbefore.not_ambiguous a ha
        · exact hcommand
        · exact hbetween.not_ambiguous a ha
        · exact (hnames a ha).not_ambiguous
        · exact hbehind.not_ambiguous a ha
      have hall := ofArgs_eq_readArgs hargs [] nofun
      rw [List.append_nil] at hall
      obtain ⟨r, hread, htells⟩ := Reading.exists_tells_around hbetween hbehind hnames
      rw [fill, hall, readArgs_append hbefore, readArgs_command h, readCommand_of_tells h hread htells]
  | @atEnd before between o₁ hbefore hbetween =>
      have hargs : ∀ a ∈ before ++ command :: between, Argument.ofString a ≠ .ambiguous := by
        intro a ha
        simp only [List.mem_append, List.mem_cons] at ha
        obtain ha | rfl | ha := ha
        · exact hbefore.not_ambiguous a ha
        · exact hcommand
        · exact hbetween.not_ambiguous a ha
      have hall := ofArgs_eq_readArgs hargs (endOfOptions :: names) (by simp)
      rw [List.append_assoc, List.cons_append] at hall
      obtain ⟨r, hread, htells⟩ := Reading.exists_tells_atEnd hbetween names
      rw [fill, hall, readArgs_append hbefore, readArgs_command h, readCommand_of_tells h hread htells]

end Frame

end LayeredConfig.CommandLine
