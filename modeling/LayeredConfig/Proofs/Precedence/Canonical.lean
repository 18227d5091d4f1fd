import LayeredConfig.Proofs.Hierarchy.Containment
import LayeredConfig.Proofs.Precedence

namespace LayeredConfig

namespace Precedence

variable {ds es : List Directive} {a b d e : Directive} {n k : Nat}

/-- Deeper, or else as deep and in an earlier line, or else in that line of a file whose name is smaller. -/
def Before (a b : Directive) : Prop :=
  b.depth < a.depth ∨ a.depth = b.depth ∧
    (a.line < b.line ∨ a.line = b.line ∧ a.file.text < b.file.text)

theorem before_of_precedes (hab : precedes a b) (hne : a.anchor ≠ b.anchor) : Before a b := by
  simp only [precedes, Bool.or_eq_true, Bool.and_eq_true, decide_eq_true_eq] at hab
  rcases hab with hdepth | ⟨hdepth, hline | ⟨hline, hfile⟩⟩
  · exact .inl hdepth
  · exact .inr ⟨hdepth, .inl hline⟩
  · have htext : a.file.text ≠ b.file.text :=
      fun he => hne (Prod.ext (Path.text_inj.1 he) hline)
    exact .inr ⟨hdepth, .inr ⟨hline, Std.lt_of_le_of_ne hfile htext⟩⟩

theorem order_pairwise_before (ds : List Directive) : (order ds).Pairwise Before := by
  have hlines : (order ds).Pairwise fun a b => a.anchor ≠ b.anchor := List.pairwise_map.1 (nodup_order ds)
  refine ((order_pairwise ds).and hlines).imp ?_
  intro a b ⟨hab, hne⟩
  exact before_of_precedes hab hne

theorem precedes_of_anchor (hanchor : a.anchor = b.anchor) (hdepth : a.depth = b.depth) : precedes a b := by
  obtain ⟨hfile, hline⟩ := Prod.mk.inj hanchor
  simp [precedes, hfile, hline, hdepth]

theorem exists_split_of_mem_eraseDupsBy (he : e ∈ ds.eraseDupsBy sameLine) :
    ∃ before after, ds = before ++ e :: after ∧ ∀ d ∈ before, d.anchor ≠ e.anchor := by
  induction ds using line_induction with
  | nil => cases he
  | cons a ds ih =>
      rw [List.eraseDupsBy_cons, List.mem_cons] at he
      rcases he with rfl | he
      · exact ⟨[], ds, rfl, nofun⟩
      · obtain ⟨before, after, hfilter, hbefore⟩ := ih he
        obtain ⟨l, r, rfl, rfl, hr⟩ := List.filter_eq_append_iff.1 hfilter
        obtain ⟨others, rest, rfl, hothers, hea, -⟩ := List.filter_eq_cons_iff.1 hr
        have hea : e.anchor ≠ a.anchor := by simpa [sameLine] using hea
        have hsame : ∀ d, ¬decide (sameLine d a = false) = true → d.anchor ≠ e.anchor := by
          intro d hda hde
          have hda : d.anchor = a.anchor := by simpa [sameLine] using hda
          exact hea (hde.symm.trans hda)
        refine ⟨a :: (l ++ others), rest, by simp, ?_⟩
        intro d hd
        rw [List.mem_cons, List.mem_append] at hd
        rcases hd with rfl | hd | hd
        · exact hea.symm
        · by_cases hda : decide (sameLine d a = false) = true
          · exact hbefore d (List.mem_filter.2 ⟨hd, hda⟩)
          · exact hsame d hda
        · exact hsame d (hothers d hd)

/-- Place `n` holds `d`, no place of its line is deeper, and none before it is as deep. -/
structure FirstDeepest (ds : List Directive) (d : Directive) (n : Nat) : Prop where
  get : ds[n]? = some d
  deepest : ∀ e ∈ ds, e.anchor = d.anchor → e.depth ≤ d.depth
  first : ∀ k e, k < n → ds[k]? = some e → e.anchor = d.anchor → e.depth < d.depth

theorem FirstDeepest.unique (hd : FirstDeepest ds d n) (he : FirstDeepest ds e k)
    (hanchor : d.anchor = e.anchor) : d = e := by
  have hle := hd.deepest e (List.mem_of_getElem? he.get) hanchor.symm
  have hge := he.deepest d (List.mem_of_getElem? hd.get) hanchor
  rcases Nat.lt_trichotomy n k with hlt | rfl | hlt
  · exact absurd (he.first n d hlt hd.get hanchor) (Int.not_lt.2 hle)
  · exact Option.some.inj (hd.get.symm.trans he.get)
  · exact absurd (hd.first k e hlt he.get hanchor.symm) (Int.not_lt.2 hge)

theorem exists_firstDeepest (hd : d ∈ order ds) : ∃ n, FirstDeepest ds d n := by
  obtain ⟨before, after, hsort, hbefore⟩ := exists_split_of_mem_eraseDupsBy hd
  rw [← StableSort.map_fst_placed] at hsort
  obtain ⟨l, r, hplaced, rfl, hr⟩ := List.map_eq_append_iff.1 hsort
  obtain ⟨⟨d, n⟩, r, rfl, rfl, -⟩ := List.map_eq_cons_iff.1 hr
  have hsorted := StableSort.pairwise_placed (fun a b c => @precedes_trans a b c) precedes_total ds
  rw [hplaced, List.pairwise_append, List.pairwise_cons] at hsorted
  have hother : ∀ k e, ds[k]? = some e → e.anchor = d.anchor →
      e = d ∧ k = n ∨ precedes d e ∧ (precedes e d → n < k) := by
    intro k e hek hanchor
    have hmem : (e, k) ∈ l ++ (d, n) :: r := hplaced ▸ StableSort.mem_placed_iff.2 hek
    rw [List.mem_append, List.mem_cons] at hmem
    rcases hmem with hmem | hmem | hmem
    · exact absurd hanchor (hbefore e (List.mem_map_of_mem hmem))
    · exact .inl (Prod.mk.inj hmem)
    · exact .inr (hsorted.2.1.1 _ hmem)
  have hget : (d, n) ∈ StableSort.placed precedes ds := hplaced ▸ List.mem_append_right l List.mem_cons_self
  refine ⟨n, StableSort.mem_placed_iff.1 hget, ?_, ?_⟩
  · intro e he hanchor
    obtain ⟨k, hek⟩ := List.mem_iff_getElem?.1 he
    rcases hother k e hek hanchor with ⟨rfl, -⟩ | ⟨hle, -⟩
    · exact Int.le_refl _
    · exact depth_le_of_precedes hle
  · intro k e hkn hek hanchor
    rcases hother k e hek hanchor with ⟨-, rfl⟩ | ⟨hle, hlt⟩
    · exact absurd hkn (Nat.lt_irrefl _)
    · have hdepth : e.depth ≠ d.depth :=
        fun hdepth => Nat.lt_asymm hkn (hlt (precedes_of_anchor hanchor hdepth))
      exact Int.lt_iff_le_and_ne.2 ⟨depth_le_of_precedes hle, hdepth⟩

theorem mem_order_iff : d ∈ order ds ↔ ∃ n, FirstDeepest ds d n := by
  constructor
  · exact exists_firstDeepest
  · intro ⟨n, hd⟩
    obtain ⟨e, he, hanchor, -⟩ := exists_mem_order (List.mem_of_getElem? hd.get)
    obtain ⟨k, hek⟩ := exists_firstDeepest he
    exact hek.unique hd hanchor ▸ he

theorem mem_map_anchor_order_iff {line : Path × Int} :
    line ∈ (order ds).map Directive.anchor ↔ line ∈ ds.map Directive.anchor := by
  rw [List.mem_map, List.mem_map]
  constructor
  · intro ⟨d, hd, hline⟩
    exact ⟨d, mem_of_mem_order hd, hline⟩
  · intro ⟨d, hd, hline⟩
    obtain ⟨e, he, hanchor, -⟩ := exists_mem_order hd
    exact ⟨e, he, hanchor.trans hline⟩

theorem order_order (ds : List Directive) : order (order ds) = order ds :=
  order_of_pairwise (order_pairwise ds) (nodup_order ds)

/-- A line at a depth is the same wherever it is listed. -/
def Consistent (ds : List Directive) : Prop :=
  ∀ d ∈ ds, ∀ e ∈ ds, d.anchor = e.anchor → d.depth = e.depth → d = e

instance (ds : List Directive) : Decidable (Consistent ds) :=
  inferInstanceAs (Decidable (∀ d ∈ ds, ∀ e ∈ ds, _ → _ → _))

theorem Consistent.mem_order_iff (hds : Consistent ds) :
    d ∈ order ds ↔ d ∈ ds ∧ ∀ e ∈ ds, e.anchor = d.anchor → e.depth ≤ d.depth := by
  constructor
  · intro hd
    exact ⟨mem_of_mem_order hd, fun e he hanchor => depth_le_of_mem_order hd he hanchor.symm⟩
  · intro ⟨hd, hdeepest⟩
    obtain ⟨e, he, hanchor, hle⟩ := exists_mem_order hd
    have hge := hdeepest e (mem_of_mem_order he) hanchor
    exact hds e (mem_of_mem_order he) d hd hanchor (Int.le_antisymm hge hle) ▸ he

theorem Consistent.order_eq (hds : Consistent ds) (hmem : ∀ d, d ∈ es ↔ d ∈ ds) : order es = order ds := by
  have hes : Consistent es := fun d hd e he => hds d ((hmem d).1 hd) e ((hmem e).1 he)
  refine eq_order (order_pairwise es) (nodup_order es) fun d => ?_
  rw [hes.mem_order_iff, hds.mem_order_iff]
  simp only [hmem]

end Precedence

theorem Hierarchy.consistent_stream (h : Hierarchy) : Precedence.Consistent h.stream.directives := by
  intro d hd e he hanchor hdepth
  obtain ⟨p, file, raw, n, -, hl, -, rfl⟩ := mem_stream_directives_iff.1 hd
  obtain ⟨q, file', raw', n', -, hl', -, rfl⟩ := mem_stream_directives_iff.1 he
  obtain ⟨hf, hn⟩ := Prod.mk.inj hanchor
  obtain rfl := Path.ofLocation_inj.1 hf
  obtain rfl : n = n' := Int.ofNat.inj hn
  obtain rfl := lines_inj hl hl'
  obtain hdepth : p.length = q.length := Int.ofNat.inj hdepth
  rw [hdepth]

namespace Precedence

/-- The order is strict and keeps of every line the first of its deepest places. Done once it is done for good,
and for lines as they are met in a hierarchy it comes from nothing but which they are. -/
theorem order_is_canonical (root : Path) (ds : List Directive) :
    (order ds).Pairwise Before ∧
    ((order ds).map Directive.anchor).Nodup ∧
    (∀ line, line ∈ (order ds).map Directive.anchor ↔ line ∈ ds.map Directive.anchor) ∧
    (∀ d, d ∈ order ds ↔ ∃ n, FirstDeepest ds d n) ∧
    order (order ds) = order ds ∧
    (Consistent ds → ∀ es, (∀ d, d ∈ es ↔ d ∈ ds) →
      order es = order ds ∧
      Override.issues root (order es) = Override.issues root (order ds) ∧
      Duplicate.issues root (order es) = Duplicate.issues root (order ds) ∧
      Effective.config (order es) = Effective.config (order ds)) ∧
    ∀ s t path given st, Document.stream s t path given = .ok st → Consistent st.directives := by
  refine ⟨order_pairwise_before ds, nodup_order ds, fun line => mem_map_anchor_order_iff,
    fun d => mem_order_iff, order_order ds, ?_, ?_⟩
  · intro hds es hmem
    rw [hds.order_eq hmem]
    exact ⟨rfl, rfl, rfl, rfl⟩
  · intro s t path given st hst
    obtain ⟨h, -, -, -, rfl⟩ := Document.exists_readFrom hst
    exact h.consistent_stream

/-- Two lines of a file that is reached at two depths, and the line that gives its key a new value. -/
def scattered : List Directive :=
  [(0, "d", 2, "A=2"), (1, "m", 1, "A=1"), (2, "m", 1, "A=1"), (1, "m", 2, "A=2"), (2, "m", 2, "A=2")].map
    fun (depth, name, line, text) =>
      ⟨.ofString name, line, depth, .inclusion, Line.key text, Line.value text, text⟩

/-- Backwards and twice over, it is the same in order. -/
theorem scattered_order_is_canonical :
    Consistent scattered ∧
      Override.issues (.ofString "/") (order (scattered.reverse ++ scattered)) =
        Override.issues (.ofString "/") (order scattered) := by
  obtain ⟨-, -, -, -, -, hsame, -⟩ := order_is_canonical (.ofString "/") scattered
  have hconsistent : Consistent scattered := by decide +kernel
  obtain ⟨-, hissues, -⟩ := hsame hconsistent (scattered.reverse ++ scattered) (by simp)
  exact ⟨hconsistent, hissues⟩

end Precedence

end LayeredConfig
