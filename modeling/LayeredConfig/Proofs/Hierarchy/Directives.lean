import Mathlib.Data.List.Perm.Subperm
import Mathlib.Order.Bounds.Basic
import LayeredConfig.Proofs.Hierarchy.Expansion
import LayeredConfig.Proofs.Precedence

namespace LayeredConfig.Hierarchy

variable {h : Hierarchy}

theorem length_mem_pathLengths {p : List Location} {file : Location} (hp : h.IsPath (p ++ [file])) :
    p.length ∈ h.pathLengths file :=
  mem_pathLengths_iff.2 ⟨p, hp, rfl⟩

theorem directive_mem_stream {file : Location} {raw : String} {n k : Nat} (hl : (raw, n) ∈ h.lines file)
    (hc : Line.IsContent raw) (hk : k ∈ h.pathLengths file) :
    Line.directive h.settings.commentPolicy file raw n k ∈ h.stream.directives := by
  obtain ⟨p, hp, rfl⟩ := mem_pathLengths_iff.1 hk
  exact mem_stream_directives_iff.2 ⟨p, file, raw, n, hp, hl, hc, rfl⟩

theorem exists_mem_directives {file : Location} {raw : String} {n k : Nat} (hl : (raw, n) ∈ h.lines file)
    (hc : Line.IsContent raw) (hk : k ∈ h.pathLengths file) :
    ∃ d ∈ h.directives, d.anchor = (.ofLocation file, (n : Int)) := by
  obtain ⟨d, hd, ha, _⟩ := Precedence.exists_mem_order (directive_mem_stream hl hc hk)
  exact ⟨d, hd, ha⟩

theorem line_of_mem_directives {d : Directive} (hd : d ∈ h.directives) :
    ∃ file raw n k, (raw, n) ∈ h.lines file ∧ Line.IsContent raw ∧ IsGreatest (h.pathLengths file) k ∧
      d = Line.directive h.settings.commentPolicy file raw n k := by
  obtain ⟨p, file, raw, n, hp, hl, hc, rfl⟩ :=
    mem_stream_directives_iff.1 (Precedence.mem_of_mem_order hd)
  refine ⟨file, raw, n, p.length, hl, hc, ⟨length_mem_pathLengths hp, ?_⟩, rfl⟩
  intro k hk
  have hle := Precedence.depth_le_of_mem_order hd (directive_mem_stream hl hc hk) rfl
  exact Int.ofNat_le.1 hle

theorem mem_directives_iff {d : Directive} :
    d ∈ h.directives ↔ ∃ file raw n k, (raw, n) ∈ h.lines file ∧ Line.IsContent raw ∧
      IsGreatest (h.pathLengths file) k ∧ d = Line.directive h.settings.commentPolicy file raw n k := by
  constructor
  · exact line_of_mem_directives
  · rintro ⟨file, raw, n, k, hl, hc, hk, rfl⟩
    obtain ⟨d, hd, ha⟩ := exists_mem_directives hl hc hk.1
    obtain ⟨file', raw', n', k', hl', _, hk', rfl⟩ := line_of_mem_directives hd
    obtain ⟨hf, hn⟩ := Prod.mk.inj ha
    obtain rfl := Path.ofLocation_inj.1 hf
    obtain rfl : n' = n := Int.ofNat.inj hn
    obtain rfl := lines_inj hl hl'
    obtain rfl := hk.unique hk'
    exact hd

theorem reaches_of_isGreatest {file : Location} {k : Nat} (hk : IsGreatest (h.pathLengths file) k) :
    h.Reaches file := by
  obtain ⟨p, hp, _⟩ := mem_pathLengths_iff.1 hk.1
  exact hp.reaches

theorem exists_directive_iff {file : Location} {n : Nat} {text : String} :
    (∃ d ∈ h.directives, d.anchor = (.ofLocation file, (n : Int)) ∧ d.text = text) ↔
      h.Reaches file ∧ ∃ raw, (raw, n) ∈ h.lines file ∧ Line.IsContent raw ∧ Text.trim raw = text := by
  constructor
  · rintro ⟨d, hd, ha, rfl⟩
    obtain ⟨file', raw, n', k, hl, hc, hk, rfl⟩ := line_of_mem_directives hd
    obtain ⟨hf, hn⟩ := Prod.mk.inj ha
    obtain rfl := Path.ofLocation_inj.1 hf
    obtain rfl : n' = n := Int.ofNat.inj hn
    exact ⟨reaches_of_isGreatest hk, raw, hl, hc, rfl⟩
  · rintro ⟨hv, raw, hl, hc, rfl⟩
    obtain ⟨p, hp⟩ := hv.exists_isPath
    obtain ⟨d, hd, ha⟩ := exists_mem_directives hl hc (length_mem_pathLengths hp)
    refine ⟨d, hd, ha, ?_⟩
    obtain ⟨file', raw', n', k, hl', _, _, rfl⟩ := line_of_mem_directives hd
    obtain ⟨hf, hn⟩ := Prod.mk.inj ha
    obtain rfl := Path.ofLocation_inj.1 hf
    obtain rfl : n' = n := Int.ofNat.inj hn
    obtain rfl := lines_inj hl hl'
    rfl

theorem kind_and_key_of_mem_directives {d : Directive} (hd : d ∈ h.directives) :
    d.kind = LineKind.ofText h.settings.commentPolicy d.text ∧ d.key = Line.key d.text := by
  obtain ⟨file, raw, n, k, _, _, _, rfl⟩ := line_of_mem_directives hd
  exact ⟨Line.directive_kind .., Line.directive_key ..⟩

/-- Every line that says something, of every file that the document leads to, becomes one directive;
nothing else does. -/
theorem directives_cover_lines {path : Path} {given : Option String} (hr : h.ReadFrom path given) :
    ∃ ds, Document.directives h.settings h.tree path given = .ok ds ∧
      (ds.map Directive.anchor).Nodup ∧
      (∀ file raw n, h.Reaches file → (raw, n) ∈ h.lines file → Line.IsContent raw →
        ∃ d ∈ ds, d.anchor = (.ofLocation file, (n : Int))) ∧
      ∀ d ∈ ds, d.kind ≠ .importing ∧ ∃ file raw n, h.Reaches file ∧ (raw, n) ∈ h.lines file ∧
        Line.IsContent raw ∧ d.anchor = (.ofLocation file, (n : Int)) ∧ d.text = Text.trim raw ∧
        d.kind = LineKind.ofText h.settings.commentPolicy (Text.trim raw) ∧
        d.key = Line.key (Text.trim raw) ∧ d.value = Line.value (Text.trim raw) := by
  refine ⟨h.directives, hr.directives, Precedence.nodup_order _, ?_, ?_⟩
  · intro file raw n hv hl hc
    obtain ⟨p, hp⟩ := hv.exists_isPath
    exact exists_mem_directives hl hc (length_mem_pathLengths hp)
  · intro d hd
    obtain ⟨file, raw, n, k, hl, hc, hk, rfl⟩ := line_of_mem_directives hd
    simp only [Line.directive_kind, Line.directive_text, Line.directive_key, Line.directive_value]
    refine ⟨fun hi => hc.2 (LineKind.ofText_eq_importing_iff.1 hi), ?_⟩
    exact ⟨file, raw, n, reaches_of_isGreatest hk, hl, hc, rfl, rfl, rfl, rfl, rfl⟩

/-- The file `c` is imported twice, and its line is there. -/
theorem crossing_directives_cover_lines :
    crossing.ReadFrom (.ofString "d") none ∧
      ∃ ds, Document.directives crossing.settings crossing.tree (.ofString "d") none = .ok ds ∧
        ∃ d ∈ ds, d.anchor = (.ofLocation (place "/w/m/c"), 1) := by
  obtain ⟨ds, hds, _, hcover, _⟩ := directives_cover_lines crossing_readFrom
  have hreaches : crossing.Reaches (place "/w/m/c") := crossing_isPath.reaches_of_mem (by simp)
  have hline : ("C=1", 1) ∈ crossing.lines (place "/w/m/c") := by decide +kernel
  exact ⟨crossing_readFrom, ds, hds, hcover _ _ _ hreaches hline (by decide +kernel)⟩

theorem isGreatest_eq_zero_iff {file : Location} {k : Nat} (hk : IsGreatest (h.pathLengths file) k) :
    k = 0 ↔ file = h.root := by
  obtain ⟨p, hp, rfl⟩ := mem_pathLengths_iff.1 hk.1
  rw [List.length_eq_zero_iff]
  constructor
  · rintro rfl
    exact isPath_singleton_iff.1 hp
  · rintro rfl
    exact hp.eq_nil_of_root

theorem depth_nonneg {d : Directive} (hd : d ∈ h.directives) : 0 ≤ d.depth := by
  obtain ⟨file, raw, n, k, _, _, _, rfl⟩ := line_of_mem_directives hd
  exact Int.natCast_nonneg k

theorem stream_depth_eq_zero_iff {d : Directive} (hd : d ∈ h.stream.directives) :
    d.depth = 0 ↔ d.file = .ofLocation h.root := by
  obtain ⟨p, file, raw, n, hp, _, _, rfl⟩ := mem_stream_directives_iff.1 hd
  rw [Line.directive, Int.natCast_eq_zero, List.length_eq_zero_iff, Path.ofLocation_inj]
  constructor
  · rintro rfl
    exact isPath_singleton_iff.1 hp
  · rintro rfl
    exact hp.eq_nil_of_root

theorem depth_eq_zero_iff {d : Directive} (hd : d ∈ h.directives) :
    d.depth = 0 ↔ d.file = .ofLocation h.root :=
  stream_depth_eq_zero_iff (Precedence.mem_of_mem_order hd)

theorem depth_eq_of_file_eq {d e : Directive} (hd : d ∈ h.directives) (he : e ∈ h.directives)
    (hf : d.file = e.file) : d.depth = e.depth := by
  obtain ⟨file, raw, n, k, _, _, hk, rfl⟩ := line_of_mem_directives hd
  obtain ⟨file', raw', n', k', _, _, hk', rfl⟩ := line_of_mem_directives he
  obtain rfl := Path.ofLocation_inj.1 hf
  exact congrArg Int.ofNat (hk.unique hk')

/-- Since a file is as deep as a whole, its lines stay in their order. -/
theorem directives_line_lt :
    h.directives.Pairwise fun d e => d.file = e.file → d.line < e.line := by
  have hn : h.directives.Pairwise fun d e => d.anchor ≠ e.anchor :=
    List.pairwise_map.1 (Precedence.nodup_order _)
  refine ((Precedence.order_pairwise h.stream.directives).and hn).imp_of_mem ?_
  rintro d e hd he ⟨hp, ha⟩ hf
  have hk := depth_eq_of_file_eq hd he hf
  have hne : d.line ≠ e.line := fun hl => ha (Prod.ext hf hl)
  simp only [Precedence.precedes, Bool.or_eq_true, Bool.and_eq_true, decide_eq_true_eq] at hp
  omega

theorem nodup_directives (h : Hierarchy) : h.directives.Nodup := (Precedence.nodup_order _).of_map

theorem depth_le_of_split {before after : List Directive} {d : Directive}
    (hds : h.directives = before ++ d :: after) :
    (∀ e ∈ before, d.depth ≤ e.depth) ∧ ∀ e ∈ after, e.depth ≤ d.depth := by
  have hdepth : h.directives.Pairwise fun d e => e.depth ≤ d.depth :=
    (Precedence.order_pairwise _).imp Precedence.depth_le_of_precedes
  rw [hds, List.pairwise_append, List.pairwise_cons] at hdepth
  exact ⟨fun e he => hdepth.2.2 e he d List.mem_cons_self, hdepth.2.1.1⟩

theorem ne_of_split {before after : List Directive} {d e : Directive}
    (hds : h.directives = before ++ d :: after) (he : e ∈ before ∨ e ∈ after) : e ≠ d := by
  have hnodup := h.nodup_directives
  rw [hds, List.nodup_append, List.nodup_cons] at hnodup
  rintro rfl
  rcases he with he | he
  · exact hnodup.2.2 e he e List.mem_cons_self rfl
  · exact hnodup.2.1.1 he

/-- A directive is as deep as the longest way to its file that passes no file twice. -/
theorem directives_depth {path : Path} {given : Option String} (hr : h.ReadFrom path given) :
    ∃ ds, Document.directives h.settings h.tree path given = .ok ds ∧
      (∀ d ∈ ds, ∃ (file : Location) (k : Nat), d.file = .ofLocation file ∧ d.depth = k ∧
        IsGreatest (h.pathLengths file) k) ∧
      (∀ d ∈ ds, d.depth = 0 ↔ d.file = .ofLocation h.root) ∧
      (∀ d ∈ ds, ∀ e ∈ ds, d.file = e.file → d.depth = e.depth) ∧
      ds.Pairwise fun d e => d.file = e.file → d.line < e.line := by
  refine ⟨h.directives, hr.directives, ?_, ?_, ?_, directives_line_lt⟩
  · intro d hd
    obtain ⟨file, raw, n, k, _, _, hk, rfl⟩ := line_of_mem_directives hd
    exact ⟨file, k, rfl, rfl, hk⟩
  · intro d hd
    obtain ⟨file, raw, n, k, _, _, hk, rfl⟩ := line_of_mem_directives hd
    rw [Line.directive, Int.natCast_eq_zero, Path.ofLocation_inj]
    exact isGreatest_eq_zero_iff hk
  · intro d hd e he hf
    exact depth_eq_of_file_eq hd he hf

theorem crossing_isGreatest : IsGreatest (crossing.pathLengths (place "/w/m/c")) 3 := by
  refine ⟨⟨_, crossing_isPath, rfl, rfl⟩, ?_⟩
  rintro k ⟨p, hp, _, hk⟩
  have hsub : p ⊆ ["/w/d", "/w/m/a", "/w/m/b", "/w/m/c"].map place :=
    fun v hv => crossing_reaches (hp.reaches_of_mem hv)
  have hle := (hp.nodup.subperm hsub).length_le
  rw [List.length_map, hk] at hle
  exact Nat.le_of_succ_le_succ hle

/-- The file `c` is as deep as the way through `a` and `b` is long, though the document imports it too. -/
theorem crossing_directives_depth :
    crossing.ReadFrom (.ofString "d") none ∧
      ∃ ds, Document.directives crossing.settings crossing.tree (.ofString "d") none = .ok ds ∧
        ∃ d ∈ ds, d.file = .ofLocation (place "/w/m/c") ∧ d.text = "C=1" ∧ d.depth = 3 := by
  obtain ⟨ds, hds, hdepth, _⟩ := directives_depth crossing_readFrom
  obtain rfl := Except.ok.inj (crossing_readFrom.directives.symm.trans hds)
  have hline : ("C=1", 1) ∈ crossing.lines (place "/w/m/c") := by decide +kernel
  have hd := mem_directives_iff.2 ⟨_, _, _, _, hline, by decide +kernel, crossing_isGreatest, rfl⟩
  refine ⟨crossing_readFrom, _, hds, _, hd, rfl, by decide +kernel, ?_⟩
  obtain ⟨file, k, hfile, hk, hgreatest⟩ := hdepth _ hd
  obtain rfl := Path.ofLocation_inj.1 hfile
  rw [hk, hgreatest.unique crossing_isGreatest]
  rfl

end LayeredConfig.Hierarchy
