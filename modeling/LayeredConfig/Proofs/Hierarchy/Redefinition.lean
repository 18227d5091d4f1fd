import LayeredConfig.Proofs.Hierarchy.Issues

namespace LayeredConfig.Hierarchy

variable {h : Hierarchy}

def Says (h : Hierarchy) (file : Location) (n : Nat) (kind : LineKind) (key : String) : Prop :=
  ∃ raw, (raw, n) ∈ h.lines file ∧ Text.trim raw ≠ "" ∧
    LineKind.ofText h.settings.commentPolicy (Text.trim raw) = kind ∧ Line.key (Text.trim raw) = key

theorem says_iff_directive {file : Location} {n : Nat} {kind : LineKind} {key : String}
    (hkind : kind ≠ .importing) :
    h.Reaches file ∧ h.Says file n kind key ↔ ∃ d ∈ h.directives,
      d.anchor = (.ofLocation file, (n : Int)) ∧ d.kind = kind ∧ d.key = key := by
  constructor
  · rintro ⟨hv, raw, hl, hne, rfl, rfl⟩
    have hc : Line.IsContent raw := ⟨hne, fun hi => hkind (LineKind.ofText_eq_importing_iff.2 hi)⟩
    obtain ⟨d, hd, ha, ht⟩ := exists_directive_iff.2 ⟨hv, raw, hl, hc, rfl⟩
    obtain ⟨hk, hkey⟩ := kind_and_key_of_mem_directives hd
    exact ⟨d, hd, ha, ht ▸ hk, ht ▸ hkey⟩
  · rintro ⟨d, hd, ha, rfl, rfl⟩
    obtain ⟨hv, raw, hl, hc, ht⟩ := exists_directive_iff.1 ⟨d, hd, ha, rfl⟩
    obtain ⟨hk, hkey⟩ := kind_and_key_of_mem_directives hd
    exact ⟨hv, raw, hl, hc.1, ht ▸ hk.symm, ht ▸ hkey.symm⟩

theorem mem_before_iff {before after : List Directive} {d e : Directive}
    (hds : h.directives = before ++ d :: after) (hd : d.file = .ofLocation h.root) :
    e ∈ before ↔ e ∈ h.directives ∧ (e.file = .ofLocation h.root → e.line < d.line) := by
  have hmem : d ∈ h.directives := hds ▸ List.mem_append_right before List.mem_cons_self
  have hline := h.directives_line_lt
  rw [hds, List.pairwise_append, List.pairwise_cons] at hline
  constructor
  · intro he
    refine ⟨hds ▸ List.mem_append_left _ he, fun hf => ?_⟩
    exact hline.2.2 e he d List.mem_cons_self (hf.trans hd.symm)
  · rintro ⟨he, hlt⟩
    have he' := he
    rw [hds, List.mem_append, List.mem_cons] at he'
    rcases he' with he' | rfl | he'
    · exact he'
    · exact absurd (hlt hd) (Int.lt_irrefl _)
    · by_cases hf : e.file = .ofLocation h.root
      · have := hline.2.1.1 e he' (hd.trans hf.symm)
        have := hlt hf
        omega
      · have hle := (depth_le_of_split hds).2 e he'
        rw [(depth_eq_zero_iff hmem).2 hd] at hle
        exact absurd ((depth_eq_zero_iff he).1 (Int.le_antisymm hle (depth_nonneg he))) hf

theorem exists_before_iff {before after : List Directive} {d : Directive} {kind : LineKind}
    (hds : h.directives = before ++ d :: after) {n : Nat} (hd : d.anchor = (.ofLocation h.root, (n : Int)))
    (hkind : kind ≠ .importing) (file : Location) (m : Nat) (key : String) :
    (∃ e ∈ before, e.anchor = (.ofLocation file, (m : Int)) ∧ e.kind = kind ∧ e.key = key) ↔
      h.Reaches file ∧ (file = h.root → m < n) ∧ h.Says file m kind key := by
  obtain ⟨hf, hn⟩ := Prod.mk.inj hd
  constructor
  · rintro ⟨e, he, ha, hk⟩
    obtain ⟨he, hlt⟩ := (mem_before_iff hds hf).1 he
    obtain ⟨hv, hs⟩ := (says_iff_directive hkind).2 ⟨e, he, ha, hk⟩
    refine ⟨hv, ?_, hs⟩
    rintro rfl
    have hlt := hlt (Prod.mk.inj ha).1
    rw [(Prod.mk.inj ha).2, hn] at hlt
    exact Int.ofNat_lt.1 hlt
  · rintro ⟨hv, hlt, hs⟩
    obtain ⟨e, he, ha, hk⟩ := (says_iff_directive hkind).1 ⟨hv, hs⟩
    refine ⟨e, (mem_before_iff hds hf).2 ⟨he, ?_⟩, ha, hk⟩
    intro hef
    rw [(Prod.mk.inj ha).2, hn]
    exact Int.ofNat_lt.2 (hlt (Path.ofLocation_inj.1 ((Prod.mk.inj ha).1.symm.trans hef)))

theorem exists_inclusion_before_iff {before after : List Directive} {d : Directive}
    (hds : h.directives = before ++ d :: after) {n : Nat} (hd : d.anchor = (.ofLocation h.root, (n : Int))) :
    (∃ e ∈ before, e.kind = .inclusion ∧ e.key = d.key) ↔
      (∃ file m, file ≠ h.root ∧ h.Reaches file ∧ h.Says file m .inclusion d.key) ∨
        ∃ m < n, h.Says h.root m .inclusion d.key := by
  have hbefore := exists_before_iff hds hd (by decide : LineKind.inclusion ≠ .importing)
  constructor
  · rintro ⟨e, he, hk⟩
    have hmem : e ∈ h.directives := hds ▸ List.mem_append_left _ he
    obtain ⟨file, raw, m, k, _, _, _, hed⟩ := line_of_mem_directives hmem
    have ha : e.anchor = (.ofLocation file, (m : Int)) := by
      rw [hed]
      rfl
    obtain ⟨hv, hlt, hs⟩ := (hbefore file m d.key).1 ⟨e, he, ha, hk⟩
    by_cases hroot : file = h.root
    · subst hroot
      exact .inr ⟨m, hlt rfl, hs⟩
    · exact .inl ⟨file, m, hroot, hv, hs⟩
  · rintro (⟨file, m, hroot, hv, hs⟩ | ⟨m, hm, hs⟩)
    · obtain ⟨e, he, _, hk⟩ := (hbefore file m d.key).2 ⟨hv, fun hr => absurd hr hroot, hs⟩
      exact ⟨e, he, hk⟩
    · obtain ⟨e, he, _, hk⟩ := (hbefore h.root m d.key).2 ⟨.refl, fun _ => hm, hs⟩
      exact ⟨e, he, hk⟩

theorem exists_excludes_before_iff {before after : List Directive} {d : Directive}
    (hds : h.directives = before ++ d :: after) {n : Nat} (hd : d.anchor = (.ofLocation h.root, (n : Int))) :
    (∃ e ∈ before, e.key = d.key ∧ Override.excludes d e) ↔ ∃ m < n, h.Says h.root m .exclusion d.key := by
  have hbefore := exists_before_iff hds hd (by decide : LineKind.exclusion ≠ .importing) h.root
  simp only [Override.excludes, Bool.and_eq_true, decide_eq_true_eq]
  constructor
  · rintro ⟨e, he, hkey, hk, hf⟩
    have hmem : e ∈ h.directives := hds ▸ List.mem_append_left _ he
    obtain ⟨file, raw, m, k, _, _, _, hed⟩ := line_of_mem_directives hmem
    have ha : e.anchor = (.ofLocation h.root, (m : Int)) := by
      rw [Directive.anchor, hf, (Prod.mk.inj hd).1, hed]
      rfl
    obtain ⟨_, hlt, hs⟩ := (hbefore m d.key).1 ⟨e, he, ha, hk, hkey⟩
    exact ⟨m, hlt rfl, hs⟩
  · rintro ⟨m, hm, hs⟩
    obtain ⟨e, he, ha, hk, hkey⟩ := (hbefore m d.key).2 ⟨.refl, fun _ => hm, hs⟩
    exact ⟨e, he, hkey, hk, (Prod.mk.inj ha).1.trans (Prod.mk.inj hd).1.symm⟩

theorem mem_redefined_iff {i : Issue} :
    i ∈ h.issues ∧ i.kind = .redefinedWithoutExclusion ↔ ∃ before d after p since,
      h.directives = before ++ d :: after ∧ d.kind = .inclusion ∧ Override.Nearest before d p since ∧
        (¬∃ e ∈ before, e.key = d.key ∧ Override.excludes d e) ∧
        i = Override.redefined h.settings.root p d := by
  rw [← Override.mem_redefined_iff]
  have hfilter : i ∈ h.issues.filter (·.kind = .redefinedWithoutExclusion) ↔
      i ∈ (Override.issues h.settings.root h.directives).filter (·.kind = .redefinedWithoutExclusion) := by
    rw [filter_redefined]
  simpa only [List.mem_filter, decide_eq_true_eq] using hfilter

theorem exists_redefined_iff (n : Nat) :
    (∃ i ∈ h.issues, i.kind = .redefinedWithoutExclusion ∧ i.anchor = (.ofLocation h.root, (n : Int))) ↔
      ∃ key, h.Says h.root n .inclusion key ∧
        ((∃ file m, file ≠ h.root ∧ h.Reaches file ∧ h.Says file m .inclusion key) ∨
          ∃ m < n, h.Says h.root m .inclusion key) ∧
        ∀ m < n, ¬h.Says h.root m .exclusion key := by
  constructor
  · rintro ⟨i, hi, hk, ha⟩
    obtain ⟨before, d, after, p, since, hds, hd, hp, he, rfl⟩ := mem_redefined_iff.1 ⟨hi, hk⟩
    have hmem : d ∈ h.directives := hds ▸ List.mem_append_right before List.mem_cons_self
    obtain ⟨_, hs⟩ := (says_iff_directive (by decide)).2 ⟨d, hmem, ha, hd, rfl⟩
    rw [exists_excludes_before_iff hds ha] at he
    refine ⟨d.key, hs, (exists_inclusion_before_iff hds ha).1 ⟨p, hp.mem, hp.kind, hp.key⟩, ?_⟩
    exact fun m hm hx => he ⟨m, hm, hx⟩
  · rintro ⟨key, hs, hgiven, hkept⟩
    obtain ⟨d, hmem, ha, hd, rfl⟩ := (says_iff_directive (by decide)).1 ⟨.refl, hs⟩
    obtain ⟨before, after, hds⟩ := List.append_of_mem hmem
    obtain ⟨p, since, hp⟩ := Override.exists_nearest ((exists_inclusion_before_iff hds ha).2 hgiven)
    have he : ¬∃ e ∈ before, e.key = d.key ∧ Override.excludes d e := by
      rw [exists_excludes_before_iff hds ha]
      rintro ⟨m, hm, hx⟩
      exact hkept m hm hx
    obtain ⟨hi, hk⟩ := mem_redefined_iff.2 ⟨before, d, after, p, since, hds, hd, hp, he, rfl⟩
    exact ⟨_, hi, hk, ha⟩

theorem says_unique {file : Location} {n : Nat} {kind kind' : LineKind} {key key' : String}
    (hs : h.Says file n kind key) (hs' : h.Says file n kind' key') : kind = kind' ∧ key = key' := by
  obtain ⟨raw, hl, _, rfl, rfl⟩ := hs
  obtain ⟨raw', hl', _, rfl, rfl⟩ := hs'
  obtain rfl := lines_inj hl hl'
  exact ⟨rfl, rfl⟩

/-- A line of the document is reported exactly where it gives a key a value that an imported file or a
line above has given one, and no line above takes the key back. -/
theorem redefinitions_exact {path : Path} {given : Option String} (hr : h.ReadFrom path given) :
    ∃ is, Document.issues h.settings h.tree path given = .ok is ∧
      (∀ n : Nat, (∃ i ∈ is, i.kind = .redefinedWithoutExclusion ∧
          i.anchor = (.ofLocation h.root, (n : Int))) ↔
        ∃ key, h.Says h.root n .inclusion key ∧
          ((∃ file m, file ≠ h.root ∧ h.Reaches file ∧ h.Says file m .inclusion key) ∨
            ∃ m < n, h.Says h.root m .inclusion key) ∧
          ∀ m < n, ¬h.Says h.root m .exclusion key) ∧
      ((is.filter (·.kind = .redefinedWithoutExclusion)).map Issue.anchor).Nodup ∧
      ∀ i ∈ is, i.kind = .redefinedWithoutExclusion → ∃ (file : Location) (n : Nat), h.Reaches file ∧
        i.anchor = (.ofLocation file, (n : Int)) ∧ h.Says file n .inclusion i.key ∧
        ∀ kind key, h.Says file n kind key → kind = .inclusion := by
  refine ⟨h.issues, hr.issues, exists_redefined_iff, ?_, ?_⟩
  · rw [filter_redefined]
    have hanchors : ((Override.issues h.settings.root h.directives).map Issue.anchor).Sublist
        (h.directives.map Directive.anchor) := Override.anchors_sublist h.directives
    exact (Precedence.nodup_order _).sublist ((List.filter_sublist.map _).trans hanchors)
  · intro i hi hk
    obtain ⟨before, d, after, p, since, hds, hd, _, _, rfl⟩ := mem_redefined_iff.1 ⟨hi, hk⟩
    have hmem : d ∈ h.directives := hds ▸ List.mem_append_right before List.mem_cons_self
    obtain ⟨file, raw, n, k, _, _, _, hline⟩ := line_of_mem_directives hmem
    have ha : d.anchor = (.ofLocation file, (n : Int)) := by
      rw [hline]
      rfl
    obtain ⟨hv, hs⟩ := (says_iff_directive (by decide)).2 ⟨d, hmem, ha, hd, rfl⟩
    exact ⟨file, n, hv, ha, hs, fun kind key hs' => (says_unique hs' hs).1⟩

/-- The last line gives `B` a value that `base` has given it; `A` and `C` are taken back before, but not `B`. -/
theorem layered_redefinitions_exact :
    layered.ReadFrom (.ofString "d") none ∧
      ∃ is, Document.issues layered.settings layered.tree (.ofString "d") none = .ok is ∧
        ∃ i ∈ is, i.kind = .redefinedWithoutExclusion ∧ i.anchor = (.ofLocation (place "/w/d"), 6) := by
  obtain ⟨is, his, hiff, _⟩ := redefinitions_exact layered_readFrom
  refine ⟨layered_readFrom, is, his, (hiff 6).2 ⟨"B", ?_, .inl ⟨place "/w/m/base", 2, ?_, ?_, ?_⟩, ?_⟩⟩
  · exact ⟨"B=2", by decide +kernel⟩
  · decide +kernel
  · exact layered_isPath.reaches_of_mem (by simp)
  · exact ⟨"B=1", by decide +kernel⟩
  · rintro m hm ⟨raw, hl, hs⟩
    have hall : ∀ line ∈ layered.lines layered.root, line.2 < 6 →
        ¬(Text.trim line.1 ≠ "" ∧ LineKind.ofText .inclusion (Text.trim line.1) = .exclusion ∧
          Line.key (Text.trim line.1) = "B") := by decide +kernel
    exact hall _ hl hm hs

end LayeredConfig.Hierarchy
