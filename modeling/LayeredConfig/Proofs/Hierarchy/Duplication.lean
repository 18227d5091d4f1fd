import LayeredConfig.Proofs.Hierarchy.Issues
import LayeredConfig.Proofs.Path

namespace LayeredConfig.Hierarchy

variable {h : Hierarchy} {text : String} {spot : Location × Nat}

/-- At `spot` the line `text` gives a key its value or takes it back. -/
structure Stands (h : Hierarchy) (text : String) (spot : Location × Nat) : Prop where
  reaches : h.Reaches spot.1
  line : ∃ raw, (raw, spot.2) ∈ h.lines spot.1 ∧ Text.trim raw = text
  nonempty : text ≠ ""
  judged : LineKind.ofText h.settings.commentPolicy text = .inclusion ∨
    LineKind.ofText h.settings.commentPolicy text = .exclusion

def shown (h : Hierarchy) (spot : Location × Nat) : String :=
  h.settings.root.location (.ofLocation spot.1) spot.2

theorem shown_injective (h : Hierarchy) : Function.Injective h.shown := by
  intro a b hab
  obtain ⟨hf, hn⟩ := (Path.location_inj (by simp [Path.ofLocation]) (by simp [Path.ofLocation])).1 hab
  exact Prod.ext (Path.ofLocation_inj.1 hf) (Int.ofNat.inj hn)

def origin (d : Directive) : Location × Nat := (d.file.names, d.line.toNat)

theorem anchor_eq_iff {d : Directive} (hd : d ∈ h.directives) :
    d.anchor = (.ofLocation spot.1, (spot.2 : Int)) ↔ origin d = spot := by
  obtain ⟨file, raw, n, k, _, _, _, rfl⟩ := line_of_mem_directives hd
  simp only [Directive.anchor, Line.directive, origin, Path.ofLocation, Prod.ext_iff, Path.mk.injEq,
    true_and, Int.natCast_inj, Int.toNat_natCast]

theorem shown_origin {d : Directive} (hd : d ∈ h.directives) :
    h.shown (origin d) = d.location h.settings.root := by
  obtain ⟨hf, hn⟩ := Prod.mk.inj ((anchor_eq_iff hd).2 rfl)
  rw [shown, ← hf, ← hn]
  rfl

theorem origin_inj {d e : Directive} (hd : d ∈ h.directives) (he : e ∈ h.directives) :
    origin d = origin e ↔ d = e := by
  refine ⟨fun ho => ?_, fun ho => by rw [ho]⟩
  have ha : d.anchor = e.anchor := ((anchor_eq_iff hd).2 ho).trans ((anchor_eq_iff he).2 rfl).symm
  exact List.inj_on_of_nodup_map (Precedence.nodup_order _) hd he ha

theorem stands_iff : h.Stands text spot ↔
    ∃ d ∈ h.directives, origin d = spot ∧ d.isJudged ∧ d.text = text := by
  constructor
  · rintro ⟨hv, ⟨raw, hl, rfl⟩, hne, hj⟩
    have hc : Line.IsContent raw := by
      refine ⟨hne, fun hi => ?_⟩
      rw [LineKind.ofText_eq_importing_iff.2 hi] at hj
      simp at hj
    obtain ⟨d, hd, ha, ht⟩ := exists_directive_iff.2 ⟨hv, raw, hl, hc, rfl⟩
    refine ⟨d, hd, (anchor_eq_iff hd).1 ha, ?_, ht⟩
    rw [Directive.isJudged, (kind_and_key_of_mem_directives hd).1, ht]
    simpa using hj
  · rintro ⟨d, hd, rfl, hj, rfl⟩
    obtain ⟨hv, raw, hl, hc, ht⟩ := exists_directive_iff.1 ⟨d, hd, (anchor_eq_iff hd).2 rfl, rfl⟩
    rw [Directive.isJudged, (kind_and_key_of_mem_directives hd).1] at hj
    exact ⟨hv, ⟨raw, hl, ht⟩, ht ▸ hc.1, by simpa using hj⟩

theorem filter_duplicate (h : Hierarchy) : h.issues.filter (·.kind = .duplicateLine) =
    Duplicate.issues h.settings.root h.directives := by
  have hstream : h.stream.issues.filter (·.kind = .duplicateLine) = [] := by
    rw [List.filter_eq_nil_iff]
    intro i hi hk
    rcases kind_of_mem_stream hi with hs | hs <;> cases hs.symm.trans (of_decide_eq_true hk)
  have hoverride :
      (Override.issues h.settings.root h.directives).filter (·.kind = .duplicateLine) = [] := by
    rw [List.filter_eq_nil_iff]
    intro i hi hk
    rcases kind_of_mem_override hi with ho | ho <;> cases ho.symm.trans (of_decide_eq_true hk)
  rw [issues_eq, List.filter_append, List.filter_append, hstream, hoverride, List.nil_append,
    List.nil_append, List.filter_eq_self]
  exact fun i hi => decide_eq_true (Duplicate.kind_of_mem hi)

theorem mem_duplicate_iff {i : Issue} : i ∈ h.issues ∧ i.kind = .duplicateLine ↔
    ∃ d ∈ h.directives, d.isJudged ∧ Duplicate.others h.directives d ≠ [] ∧
      i = Duplicate.issueAt h.settings.root (Duplicate.others h.directives d) d := by
  rw [← Duplicate.mem_issues_iff h.nodup_directives, ← filter_duplicate, List.mem_filter,
    decide_eq_true_iff]

theorem mem_others_iff {d : Directive} (hd : d ∈ h.directives) :
    spot ∈ (Duplicate.others h.directives d).map origin ↔ spot ≠ origin d ∧ h.Stands d.text spot := by
  rw [List.mem_map, stands_iff]
  constructor
  · rintro ⟨e, he, rfl⟩
    obtain ⟨he, hne, hj, htext⟩ := Duplicate.mem_others_iff.1 he
    exact ⟨fun ho => hne ((origin_inj he hd).1 ho), e, he, rfl, hj, htext⟩
  · rintro ⟨hne, e, he, rfl, hj, htext⟩
    exact ⟨e, Duplicate.mem_others_iff.2 ⟨he, fun hed => hne (by rw [hed]), hj, htext⟩, rfl⟩

theorem nodup_origins {d : Directive} (hd : d ∈ h.directives) :
    (origin d :: (Duplicate.others h.directives d).map origin).Nodup := by
  have hds : (h.directives.map origin).Nodup := by
    refine h.nodup_directives.map_on ?_
    exact fun d hd e he ho => (origin_inj hd he).1 ho
  rw [List.nodup_cons]
  exact ⟨fun ho => ((mem_others_iff hd).1 ho).1 rfl, hds.sublist (List.filter_sublist.map _)⟩

theorem exists_duplicate_iff (file : Location) (n : Nat) :
    (∃ i ∈ h.issues, i.kind = .duplicateLine ∧ i.anchor = (.ofLocation file, (n : Int))) ↔
      ∃ text other, other ≠ (file, n) ∧ h.Stands text (file, n) ∧ h.Stands text other := by
  constructor
  · rintro ⟨i, hi, hk, ha⟩
    obtain ⟨d, hd, hj, hne, rfl⟩ := mem_duplicate_iff.1 ⟨hi, hk⟩
    obtain ⟨e, he⟩ := List.exists_mem_of_ne_nil _ hne
    have ho : origin d = (file, n) := (@anchor_eq_iff h (file, n) d hd).1 ha
    obtain ⟨hother, hs⟩ := (mem_others_iff hd).1 (List.mem_map_of_mem he)
    exact ⟨d.text, origin e, ho ▸ hother, stands_iff.2 ⟨d, hd, ho, hj, rfl⟩, hs⟩
  · rintro ⟨text, other, hother, hs, hs'⟩
    obtain ⟨d, hd, ho, hj, rfl⟩ := stands_iff.1 hs
    have hmem := (mem_others_iff hd).2 ⟨ho ▸ hother, hs'⟩
    have hne : Duplicate.others h.directives d ≠ [] := by
      intro hnil
      rw [hnil] at hmem
      cases hmem
    obtain ⟨hi, hk⟩ := mem_duplicate_iff.2 ⟨d, hd, hj, hne, rfl⟩
    exact ⟨_, hi, hk, (@anchor_eq_iff h (file, n) d hd).2 ho⟩

/-- A line is reported once at each of its places, if it has another one, and the message names every other
place once. -/
theorem duplicates_exact {path : Path} {given : Option String} (hr : h.ReadFrom path given) :
    ∃ is, Document.issues h.settings h.tree path given = .ok is ∧
      (∀ (file : Location) (n : Nat),
        (∃ i ∈ is, i.kind = .duplicateLine ∧ i.anchor = (.ofLocation file, (n : Int))) ↔
          ∃ text other, other ≠ (file, n) ∧ h.Stands text (file, n) ∧ h.Stands text other) ∧
      ((is.filter (·.kind = .duplicateLine)).map Issue.anchor).Nodup ∧
      ∀ i ∈ is, i.kind = .duplicateLine → ∃ text spot others,
        i.anchor = (.ofLocation spot.1, (spot.2 : Int)) ∧ h.Stands text spot ∧
        (∀ other, other ∈ others ↔ other ≠ spot ∧ h.Stands text other) ∧
        i.message = s!"Duplicate line '{text}'. Also on " ++ ", ".intercalate (others.map h.shown) ++ "." ∧
        ((spot :: others).map h.shown).Nodup := by
  refine ⟨h.issues, hr.issues, exists_duplicate_iff, ?_, ?_⟩
  · rw [filter_duplicate]
    exact Duplicate.nodup_anchors (Precedence.nodup_order _)
  · intro i hi hk
    obtain ⟨d, hd, hj, _, rfl⟩ := mem_duplicate_iff.1 ⟨hi, hk⟩
    refine ⟨d.text, origin d, (Duplicate.others h.directives d).map origin, (anchor_eq_iff hd).2 rfl,
      stands_iff.2 ⟨d, hd, rfl, hj, rfl⟩, fun other => mem_others_iff hd, ?_,
      (nodup_origins hd).map h.shown_injective⟩
    have hshown : ((Duplicate.others h.directives d).map origin).map h.shown =
        (Duplicate.others h.directives d).map (·.location h.settings.root) := by
      rw [List.map_map]
      exact List.map_congr_left fun e he => shown_origin (Duplicate.mem_others_iff.1 he).1
    rw [hshown]
    rfl

theorem layered_stands {v : Location} {n : Nat} :
    layered.Stands "A=1" (v, n) ↔ (v, n) = (place "/w/d", 3) ∨ (v, n) = (place "/w/m/base", 1) := by
  constructor
  · rintro ⟨hv, ⟨raw, hl, ht⟩, _, _⟩
    have hall : ∀ v ∈ ["/w/d", "/w/m/mid", "/w/m/base"].map place, ∀ line ∈ layered.lines v,
        Text.trim line.1 = "A=1" →
          (v, line.2) = (place "/w/d", 3) ∨ (v, line.2) = (place "/w/m/base", 1) := by
      decide +kernel
    exact hall v (layered_reaches hv) _ hl ht
  · rintro (hp | hp) <;> cases hp
    · exact ⟨.refl, ⟨"A=1", by decide +kernel⟩, by decide, .inl rfl⟩
    · refine ⟨?_, ⟨"A=1", by decide +kernel⟩, by decide, .inl rfl⟩
      exact layered_isPath.reaches_of_mem (by simp)

/-- The document and `base` say `A=1`, and nothing else does. -/
theorem layered_duplicates_exact :
    layered.ReadFrom (.ofString "d") none ∧
      ∃ is, Document.issues layered.settings layered.tree (.ofString "d") none = .ok is ∧
        ∃ i ∈ is, i.kind = .duplicateLine ∧ i.anchor = (.ofLocation (place "/w/d"), 3) ∧
          i.message = "Duplicate line 'A=1'. Also on m/base:1." := by
  obtain ⟨is, his, hiff, _, hmessage⟩ := duplicates_exact layered_readFrom
  have hd : layered.Stands "A=1" (place "/w/d", 3) := layered_stands.2 (.inl rfl)
  obtain ⟨i, hi, hk, ha⟩ := (hiff _ 3).2
    ⟨"A=1", (place "/w/m/base", 1), by decide +kernel, hd, layered_stands.2 (.inr rfl)⟩
  refine ⟨layered_readFrom, is, his, i, hi, hk, ha, ?_⟩
  obtain ⟨text, ⟨file, n⟩, others, ha', hs, hothers, hm, hnodup⟩ := hmessage i hi hk
  obtain ⟨hf, hn⟩ := Prod.mk.inj (ha.symm.trans ha')
  obtain rfl := Path.ofLocation_inj.1 hf
  obtain rfl : 3 = n := Int.ofNat.inj hn
  obtain ⟨raw, hl, rfl⟩ := hs.line
  obtain ⟨raw', hl', htext⟩ := hd.line
  obtain rfl := lines_inj hl hl'
  rw [htext] at hothers hm
  have hone : others = [(place "/w/m/base", 1)] := by
    have hmem : ∀ other, other ∈ others ↔ other = (place "/w/m/base", 1) := by
      rintro ⟨v, n⟩
      rw [hothers, layered_stands]
      grind
    have hnodup := (List.nodup_cons.1 hnodup).2.of_map
    exact List.perm_singleton.1 ((List.perm_ext_iff_of_nodup hnodup (by simp)).2 (by simp [hmem]))
  rw [hm, hone]
  decide +kernel

end LayeredConfig.Hierarchy
