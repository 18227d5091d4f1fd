import LayeredConfig.Proofs.Effective.Levels
import LayeredConfig.Proofs.Hierarchy.Redefinition

namespace LayeredConfig

namespace Override

variable {c e : Directive} {ds : List Directive}

/-- Leaves out `c`, and what its file takes back of the key above it. -/
def undo (c : Directive) (ds : List Directive) : List Directive :=
  ds.filter fun e => ¬(e = c ∨ excludes c e ∧ e.key = c.key ∧ e.line < c.line)

/-- Once `c` is gone, what is left takes its key away: nothing lies above the place of `c`, and there is
an exclusion above every inclusion. -/
structure Uncovers (c : Directive) (rest : List Directive) : Prop where
  uppermost : ∀ e ∈ rest, e.mentions c.key → c.depth ≤ e.depth
  excluded : ∃ e ∈ rest, e.kind = .exclusion ∧ e.key = c.key ∧
    ∀ x ∈ rest, x.kind = .inclusion → x.key = c.key → e.depth < x.depth

theorem mem_undo_iff :
    e ∈ undo c ds ↔ e ∈ ds ∧ e ≠ c ∧ ¬(excludes c e ∧ e.key = c.key ∧ e.line < c.line) := by
  simp only [undo, List.mem_filter, not_or, decide_eq_true_eq, ne_eq]

theorem undo_eq_append {l r : List Directive} (hds : ds = l ++ e :: r) (hk : e.kind = .inclusion)
    (hne : e ≠ c) : undo c ds = undo c l ++ e :: undo c r := by
  rw [hds, undo, List.filter_append, List.filter_cons_of_pos]
  · rfl
  · simp [excludes, hk, hne]

theorem Uncovers.get?_config {rest : List Directive} (hu : Uncovers c rest) :
    (Effective.config rest).get? c.key = none := by
  obtain ⟨e, he, hk, hkey, hall⟩ := hu.excluded
  rw [Effective.get?_config_eq_none_iff]
  intro x hx hdx
  have hlt := hall x hx hdx.1 hdx.2.1
  have hle := hdx.2.2 e he (Directive.mentions_iff.2 ⟨.inr hk, hkey⟩)
  exact absurd hlt (Int.not_lt.2 hle)

end Override

namespace Hierarchy

open Override Effective

variable {h : Hierarchy} {before after since : List Directive} {c p : Directive}

theorem of_notMem_undo (hc : c ∈ h.directives) {e : Directive} (he : e ∈ h.directives)
    (hn : e ∉ undo c h.directives) : e.key = c.key ∧ e.depth = c.depth := by
  by_cases hec : e = c
  · subst hec
    exact ⟨rfl, rfl⟩
  · by_contra hne
    apply hn
    refine mem_undo_iff.2 ⟨he, hec, ?_⟩
    rintro ⟨hx, hkey, _⟩
    simp only [excludes, Bool.and_eq_true, decide_eq_true_eq] at hx
    exact hne ⟨hkey, depth_eq_of_file_eq he hc hx.2⟩

theorem get?_undo_of_above {key : String} (hc : c ∈ h.directives)
    (habove : key = c.key → ∃ e ∈ undo c h.directives, e.mentions key ∧ e.depth < c.depth) :
    (config (undo c h.directives)).get? key = (config h.directives).get? key := by
  apply get?_config_filter
  intro d hd hq hm
  have hn : d ∉ undo c h.directives := fun hmem => hq (List.mem_filter.1 hmem).2
  obtain ⟨hkey, hdepth⟩ := of_notMem_undo hc hd hn
  obtain ⟨e, he, hme, hlt⟩ := habove ((Directive.mentions_iff.1 hm).2.symm.trans hkey)
  exact ⟨e, (List.mem_filter.1 he).1, (List.mem_filter.1 he).2, hme, hdepth ▸ hlt⟩

theorem decides_of_uppermost (hc : c ∈ h.directives) (hk : c.kind = .inclusion)
    (htop : ∀ e ∈ undo c h.directives, e.mentions c.key → c.depth ≤ e.depth) :
    Decides h.directives c.key c := by
  refine ⟨hk, rfl, fun e he hm => ?_⟩
  by_cases hmem : e ∈ undo c h.directives
  · exact htop e hmem hm
  · exact Int.le_of_eq (of_notMem_undo hc he hmem).2.symm

theorem get?_undo_of_later (hds : h.directives = before ++ c :: after) (hk : c.kind = .inclusion)
    (htop : ∀ e ∈ undo c h.directives, e.mentions c.key → c.depth ≤ e.depth)
    (hlater : ∃ e ∈ after, e.kind = .inclusion ∧ e.key = c.key) :
    (config (undo c h.directives)).get? c.key = (config h.directives).get? c.key := by
  obtain ⟨e, later, he⟩ := exists_nearest hlater
  obtain ⟨between, rfl⟩ := he.split
  have hc : c ∈ h.directives := hds ▸ List.mem_append_right before List.mem_cons_self
  -- What comes after `c` is as it was, and the last of it decides.
  have hec : e ≠ c := ne_of_split hds (.inr (by simp))
  have hle : e.depth ≤ c.depth := (depth_le_of_split hds).2 e (by simp)
  have hc' := decides_of_uppermost hc hk htop
  have hdecides : Decides h.directives c.key e :=
    ⟨he.kind, he.key, fun x hx hm => Int.le_trans hle (hc'.2.2 x hx hm)⟩
  have hdecides' : Decides (undo c h.directives) c.key e :=
    ⟨he.kind, he.key, fun x hx hm => hdecides.2.2 x (mem_undo_iff.1 hx).1 hm⟩
  have hsplit : h.directives = (before ++ c :: between) ++ e :: later := by
    rw [hds, List.append_assoc, List.cons_append]
  have hundo := undo_eq_append hsplit he.kind hec
  rw [get?_config_of_last hsplit hdecides he.since]
  exact get?_config_of_last hundo hdecides' fun x hx hkey => he.since x (mem_undo_iff.1 hx).1 hkey

theorem directives_eq_of_nearest (hp : Nearest before c p since) (hds : h.directives = before ++ c :: after) :
    ∃ b, before = b ++ p :: since ∧ h.directives = b ++ p :: (since ++ c :: after) := by
  obtain ⟨b, rfl⟩ := hp.split
  exact ⟨b, rfl, by rw [hds, List.append_assoc, List.cons_append]⟩

theorem depth_le_of_nearest (hds : h.directives = before ++ c :: after) (hp : Nearest before c p since)
    (hlast : ∀ e ∈ after, e.key = c.key → e.kind ≠ .inclusion) {x : Directive} (hx : x ∈ undo c h.directives)
    (hk : x.kind = .inclusion) (hkey : x.key = c.key) : p.depth ≤ x.depth := by
  obtain ⟨b, _, hb⟩ := directives_eq_of_nearest hp hds
  obtain ⟨hx, hne, _⟩ := mem_undo_iff.1 hx
  rw [hb, List.mem_append, List.mem_cons, List.mem_append, List.mem_cons] at hx
  rcases hx with hx | rfl | hx | rfl | hx
  · exact (depth_le_of_split hb).1 x hx
  · exact Int.le_refl _
  · exact absurd hk (hp.since x hx hkey)
  · exact absurd rfl hne
  · exact absurd hk (hlast x hx hkey)

theorem get?_undo_of_last (hds : h.directives = before ++ c :: after) (hp : Nearest before c p since)
    (hlast : ∀ e ∈ after, e.key = c.key → e.kind ≠ .inclusion)
    (hfree : ∀ e ∈ undo c h.directives, e.kind = .exclusion → e.key = c.key →
      ∃ x ∈ undo c h.directives, x.kind = .inclusion ∧ x.key = c.key ∧ x.depth ≤ e.depth) :
    (config (undo c h.directives)).get? c.key = some p.value := by
  obtain ⟨b, _, hb⟩ := directives_eq_of_nearest hp hds
  have hdecides : Decides (undo c h.directives) c.key p := by
    refine ⟨hp.kind, hp.key, fun e he hm => ?_⟩
    obtain ⟨hek | hek, hkey⟩ := Directive.mentions_iff.1 hm
    · exact depth_le_of_nearest hds hp hlast he hek hkey
    · obtain ⟨x, hx, hxk, hxkey, hle⟩ := hfree e he hek hkey
      exact Int.le_trans (depth_le_of_nearest hds hp hlast hx hxk hxkey) hle
  refine get?_config_of_last (undo_eq_append hb hp.kind (ne_of_split hds (.inl hp.mem))) hdecides ?_
  intro x hx hkey
  obtain ⟨hx, hne, _⟩ := mem_undo_iff.1 hx
  rcases List.mem_append.1 hx with hx | hx
  · exact hp.since x hx hkey
  · exact hlast x (List.mem_of_ne_of_mem hne hx) hkey

theorem get?_undo_iff (hds : h.directives = before ++ c :: after) (hk : c.kind = .inclusion)
    (hp : Nearest before c p since) (hv : p.value = c.value) :
    (∀ key, (config (undo c h.directives)).get? key = (config h.directives).get? key) ↔
      ¬Uncovers c (undo c h.directives) := by
  have hc : c ∈ h.directives := hds ▸ List.mem_append_right before List.mem_cons_self
  constructor
  · intro hsame hu
    have hnone := hsame c.key ▸ hu.get?_config
    exact get?_config_eq_none_iff.1 hnone c hc (decides_of_uppermost hc hk hu.uppermost)
  · intro hu key
    by_cases habove : key = c.key → ∃ e ∈ undo c h.directives, e.mentions key ∧ e.depth < c.depth
    · exact get?_undo_of_above hc habove
    · rw [Classical.not_imp] at habove
      obtain ⟨rfl, habove⟩ := habove
      have htop : ∀ e ∈ undo c h.directives, e.mentions c.key → c.depth ≤ e.depth := by
        intro e he hm
        exact Int.not_lt.1 fun hlt => habove ⟨e, he, hm, hlt⟩
      by_cases hlater : ∃ e ∈ after, e.kind = .inclusion ∧ e.key = c.key
      · exact get?_undo_of_later hds hk htop hlater
      · have hlast : ∀ e ∈ after, e.key = c.key → e.kind ≠ .inclusion :=
          fun e he hkey hek => hlater ⟨e, he, hek, hkey⟩
        have hfree : ∀ e ∈ undo c h.directives, e.kind = .exclusion → e.key = c.key →
            ∃ x ∈ undo c h.directives, x.kind = .inclusion ∧ x.key = c.key ∧ x.depth ≤ e.depth := by
          intro e he hek hkey
          by_contra hno
          refine hu ⟨htop, e, he, hek, hkey, fun x hx hxk hxkey => ?_⟩
          exact Int.not_le.1 fun hle => hno ⟨x, hx, hxk, hxkey, hle⟩
        rw [get?_undo_of_last hds hp hlast hfree, hv]
        exact (get?_config_of_last hds (decides_of_uppermost hc hk htop) hlast).symm

/-- An unnecessary redefinition can be undone exactly where what is left does not take the key away. -/
theorem unnecessary_redefinitions_undone {path : Path} {given : Option String} (hr : h.ReadFrom path given) :
    ∃ ordered, Document.directives h.settings h.tree path given = .ok ordered ∧
      ∀ i ∈ Override.issues h.settings.root ordered, i.kind = .unnecessaryRedefinition →
        ∃ c ∈ ordered, i.directive = some c ∧ c.kind = .inclusion ∧
          ((∀ key, (config (undo c ordered)).get? key = (config ordered).get? key) ↔
            ¬Uncovers c (undo c ordered)) := by
  refine ⟨h.directives, hr.directives, fun i hi hk => ?_⟩
  obtain ⟨before, c, after, p, since, hds, hc, hp, hv, _, rfl⟩ := Override.mem_unnecessary_iff.1 ⟨hi, hk⟩
  have hmem : c ∈ h.directives := hds ▸ List.mem_append_right before List.mem_cons_self
  exact ⟨c, hmem, rfl, hc, get?_undo_iff hds hc hp hv⟩

theorem directive_mem_of_root {raw : String} {n : Nat} (hl : (raw, n) ∈ h.lines h.root)
    (hc : Line.IsContent raw) :
    Line.directive h.settings.commentPolicy h.root raw n 0 ∈ h.directives := by
  refine mem_directives_iff.2 ⟨h.root, raw, n, 0, hl, hc, ?_, rfl⟩
  refine ⟨length_mem_pathLengths (p := []) (isPath_singleton_iff.2 rfl), fun k hk => ?_⟩
  obtain ⟨p, hp, rfl⟩ := mem_pathLengths_iff.1 hk
  rw [hp.eq_nil_of_root]
  exact Nat.le_refl 0

theorem mem_since_of_nearest (hds : h.directives = before ++ c :: after) (hp : Nearest before c p since)
    (hpf : p.file ≠ .ofLocation h.root) {e : Directive} (he : e ∈ before)
    (hef : e.file = .ofLocation h.root) : e ∈ since := by
  obtain ⟨b, hbefore, hb⟩ := directives_eq_of_nearest hp hds
  have hed : e ∈ h.directives := hds ▸ List.mem_append_left _ he
  have hpd : p ∈ h.directives := hb ▸ List.mem_append_right b List.mem_cons_self
  rw [hbefore, List.mem_append, List.mem_cons] at he
  rcases he with he | rfl | he
  · have hle := (depth_le_of_split hb).1 e he
    rw [(depth_eq_zero_iff hed).2 hef] at hle
    exact absurd ((depth_eq_zero_iff hpd).1 (Int.le_antisymm hle (depth_nonneg hpd))) hpf
  · exact absurd hef hpf
  · exact he

theorem unnecessary_mem_issues {raw : String} {n : Nat} (hl : (raw, n) ∈ h.lines h.root)
    (hk : Text.trim raw ≠ "" ∧ LineKind.ofText h.settings.commentPolicy (Text.trim raw) = .inclusion)
    (hx : ∃ m < n, h.Says h.root m .exclusion (Line.key (Text.trim raw)))
    (hgiven : ∃ file m, file ≠ h.root ∧ h.Reaches file ∧ h.Says file m .inclusion (Line.key (Text.trim raw)))
    (hvalue : ∀ file, h.Reaches file → ∀ line ∈ h.lines file,
      LineKind.ofText h.settings.commentPolicy (Text.trim line.1) = .inclusion →
      Line.key (Text.trim line.1) = Line.key (Text.trim raw) →
      file = h.root ∧ line.2 = n ∨
        file ≠ h.root ∧ Line.value (Text.trim line.1) = Line.value (Text.trim raw)) :
    unnecessary h.settings.root (Line.directive h.settings.commentPolicy h.root raw n 0) ∈
      Override.issues h.settings.root h.directives := by
  have hcontent : Line.IsContent raw := by
    refine ⟨hk.1, fun hi => ?_⟩
    have hi : LineKind.ofText h.settings.commentPolicy (Text.trim raw) = .importing :=
      LineKind.ofText_eq_importing_iff.2 hi
    exact absurd (hk.2.symm.trans hi) (by decide)
  have hc := directive_mem_of_root hl hcontent
  obtain ⟨before, after, hds⟩ := List.append_of_mem hc
  obtain ⟨p, since, hp⟩ := exists_nearest ((exists_inclusion_before_iff hds rfl).2 (.inl hgiven))
  obtain ⟨hpd, hplt⟩ := (mem_before_iff hds rfl).1 hp.mem
  have hpkind := hp.kind
  have hpkey := hp.key
  obtain ⟨file, raw', n', k, hl', _, hg, hpline⟩ := line_of_mem_directives hpd
  rw [hpline, Line.directive_kind] at hpkind
  rw [hpline, Line.directive_key, Line.directive_key] at hpkey
  obtain ⟨rfl, rfl⟩ | ⟨hfile, hv⟩ := hvalue file (reaches_of_isGreatest hg) _ hl' hpkind hpkey
  · have hlt := hplt (by rw [hpline]; rfl)
    rw [hpline] at hlt
    exact absurd hlt (Int.lt_irrefl _)
  have hpfile : p.file ≠ .ofLocation h.root := by
    rw [hpline]
    exact fun hf => hfile (Path.ofLocation_inj.1 hf)
  have hpvalue : p.value = (Line.directive h.settings.commentPolicy h.root raw n 0).value := by
    rw [hpline, Line.directive_value, Line.directive_value, hv]
  have hkind : (Line.directive h.settings.commentPolicy h.root raw n 0).kind = .inclusion := by
    rw [Line.directive_kind, hk.2]
  obtain ⟨e, he, hkey, hxe⟩ := (exists_excludes_before_iff hds rfl).2 hx
  have hef : e.kind = .exclusion ∧ e.file = .ofLocation h.root := by simpa [excludes] using hxe
  have hes : e ∈ since := mem_since_of_nearest hds hp hpfile he hef.2
  exact (mem_unnecessary_iff.2
    ⟨before, _, after, p, since, hds, hkind, hp, hpvalue, ⟨e, hes, hkey, hxe⟩, rfl⟩).1

theorem layered_unnecessary {raw : String} {n : Nat} (hline : (raw, n) = ("A=1", 3) ∨ (raw, n) = ("C=1", 5)) :
    unnecessary layered.settings.root (Line.directive .inclusion layered.root raw n 0) ∈
      Override.issues layered.settings.root layered.directives := by
  have hlines : ∀ file ∈ ["/w/d", "/w/m/mid", "/w/m/base"].map place, ∀ line ∈ layered.lines file,
      LineKind.ofText .inclusion (Text.trim line.1) = .inclusion →
      ∀ l ∈ [("A=1", 3), ("C=1", 5)], Line.key (Text.trim line.1) = Line.key (Text.trim l.1) →
      file = layered.root ∧ line.2 = l.2 ∨
        file ≠ layered.root ∧ Line.value (Text.trim line.1) = Line.value (Text.trim l.1) := by
    decide +kernel
  have hbase : layered.Reaches (place "/w/m/base") := layered_isPath.reaches_of_mem (by simp)
  apply unnecessary_mem_issues
  · rcases hline with hline | hline <;> cases hline <;> decide +kernel
  · rcases hline with hline | hline <;> cases hline <;> decide +kernel
  · rcases hline with hline | hline <;> cases hline
    · exact ⟨2, by decide, "-A", by decide +kernel⟩
    · exact ⟨4, by decide, "-C", by decide +kernel⟩
  · rcases hline with hline | hline <;> cases hline
    · exact ⟨place "/w/m/base", 1, by decide +kernel, hbase, "A=1", by decide +kernel⟩
    · exact ⟨place "/w/m/base", 3, by decide +kernel, hbase, "C=1", by decide +kernel⟩
  · intro file hfile line hl hk hkey
    exact hlines file (layered_reaches hfile) line hl hk (raw, n) (by simpa using hline) hkey

/-- Nothing but the document takes `C` back, so its line may go. -/
theorem layered_unnecessary_redefinitions_undone :
    layered.ReadFrom (.ofString "d") none ∧
      ∃ ordered, Document.directives layered.settings layered.tree (.ofString "d") none = .ok ordered ∧
        ∃ c ∈ ordered, unnecessary layered.settings.root c ∈ Override.issues layered.settings.root ordered ∧
          c.key = "C" ∧ ∀ key, (config (undo c ordered)).get? key = (config ordered).get? key := by
  obtain ⟨ordered, ho, hall⟩ := unnecessary_redefinitions_undone layered_readFrom
  obtain rfl : layered.directives = ordered := Except.ok.inj (layered_readFrom.directives.symm.trans ho)
  have hi := layered_unnecessary (.inr rfl)
  obtain ⟨c, hc, hci, _, hiff⟩ := hall _ hi rfl
  obtain rfl := Option.some.inj hci
  have hkey : Line.key (Text.trim "C=1") = "C" := by decide +kernel
  refine ⟨layered_readFrom, _, ho, _, hc, hi, hkey, hiff.2 ?_⟩
  intro hu
  obtain ⟨e, he, hk, hkey, _⟩ := hu.excluded
  obtain ⟨hed, _, hkept⟩ := mem_undo_iff.1 he
  obtain ⟨file, raw, n, k, hl, _, hg, rfl⟩ := line_of_mem_directives hed
  have hlines : ∀ file ∈ ["/w/d", "/w/m/mid", "/w/m/base"].map place, ∀ line ∈ layered.lines file,
      LineKind.ofText .inclusion (Text.trim line.1) = .exclusion →
      Line.key (Text.trim line.1) = Line.key (Text.trim "C=1") → file = layered.root ∧ line.2 < 5 := by
    decide +kernel
  rw [Line.directive_kind] at hk
  rw [Line.directive_key, Line.directive_key] at hkey
  obtain ⟨rfl, hn⟩ := hlines file (layered_reaches (reaches_of_isGreatest hg)) _ hl hk hkey
  refine hkept ⟨?_, ?_, Int.ofNat_lt.2 hn⟩
  · simp only [excludes, Line.directive_kind, Line.directive_file, hk, decide_true, Bool.and_self]
  · rw [Line.directive_key, Line.directive_key, hkey]

theorem layered_mid_isGreatest : IsGreatest (layered.pathLengths (place "/w/m/mid")) 1 := by
  have hpath : layered.IsPath ([place "/w/d"] ++ [place "/w/m/mid"]) :=
    IsPath.of_append (q := [place "/w/m/base"]) layered_isPath (by simp)
  refine ⟨length_mem_pathLengths hpath, fun k hk => ?_⟩
  obtain ⟨p, hp, rfl⟩ := mem_pathLengths_iff.1 hk
  rcases List.eq_nil_or_concat p with rfl | ⟨q, u, rfl⟩
  · exact Nat.zero_le 1
  · rw [List.concat_eq_append] at hp ⊢
    obtain ⟨hq, ⟨raw, n, hl, hi⟩, _⟩ := isPath_append_singleton_iff.1 hp
    have hlines : ∀ file ∈ ["/w/d", "/w/m/mid", "/w/m/base"].map place, ∀ line ∈ layered.lines file,
        layered.Imports line.1 (place "/w/m/mid") → file = layered.root := by decide +kernel
    obtain rfl := hlines u (layered_reaches hq.reaches) _ hl hi
    rw [hq.eq_nil_of_root]
    exact Nat.le_refl 1

theorem layered_uncovers :
    Uncovers (Line.directive .inclusion layered.root "A=1" 3 0)
      (undo (Line.directive .inclusion layered.root "A=1" 3 0) layered.directives) := by
  have hl : ("-A", 2) ∈ layered.lines (place "/w/m/mid") := by decide +kernel
  refine ⟨fun e he _ => depth_nonneg (mem_undo_iff.1 he).1,
    Line.directive .inclusion (place "/w/m/mid") "-A" 2 1, ?_, ?_, ?_, ?_⟩
  · refine mem_undo_iff.2 ⟨?_, ?_, ?_⟩
    · exact mem_directives_iff.2 ⟨_, _, _, _, hl, by decide +kernel, layered_mid_isGreatest, rfl⟩
    · decide +kernel
    · decide +kernel
  · decide +kernel
  · decide +kernel
  · intro x hx hk hkey
    obtain ⟨hxd, hxc, _⟩ := mem_undo_iff.1 hx
    obtain ⟨file, raw, n, k, hl, _, hg, rfl⟩ := line_of_mem_directives hxd
    rw [Line.directive_kind] at hk
    rw [Line.directive_key, Line.directive_key] at hkey
    have hlines : ∀ file ∈ ["/w/d", "/w/m/mid", "/w/m/base"].map place, ∀ line ∈ layered.lines file,
        LineKind.ofText .inclusion (Text.trim line.1) = .inclusion →
        Line.key (Text.trim line.1) = Line.key (Text.trim "A=1") →
        file = layered.root ∧ line = ("A=1", 3) ∨ file = place "/w/m/base" := by decide +kernel
    obtain ⟨rfl, hline⟩ | rfl := hlines file (layered_reaches (reaches_of_isGreatest hg)) _ hl hk hkey
    · cases hline
      obtain rfl := (isGreatest_eq_zero_iff hg).2 rfl
      exact absurd rfl hxc
    · have hlong : 2 ∈ layered.pathLengths (place "/w/m/base") := ⟨_, layered_isPath, rfl, rfl⟩
      exact Int.ofNat_lt.2 (hg.2 hlong)

/-- The file `mid` takes `A` away below the document and above `base`: what restores it is not idle. -/
theorem layered_restored_not_idle :
    ∃ ordered, Document.directives layered.settings layered.tree (.ofString "d") none = .ok ordered ∧
      ∃ c ∈ ordered, unnecessary layered.settings.root c ∈ Override.issues layered.settings.root ordered ∧
        (config (undo c ordered)).get? c.key ≠ (config ordered).get? c.key := by
  have hl : ("A=1", 3) ∈ layered.lines layered.root := by decide +kernel
  have hc := directive_mem_of_root hl (by decide +kernel)
  refine ⟨_, layered_readFrom.directives, _, hc, layered_unnecessary (.inl rfl), fun hsame => ?_⟩
  have hnone := hsame ▸ layered_uncovers.get?_config
  have hk : (Line.directive .inclusion layered.root "A=1" 3 0).kind = .inclusion := by decide +kernel
  exact get?_config_eq_none_iff.1 hnone _ hc (decides_of_uppermost hc hk layered_uncovers.uppermost)

end Hierarchy

end LayeredConfig
