import LayeredConfig.Proofs.FileTree
import LayeredConfig.Proofs.Hierarchy.Issues
import LayeredConfig.Proofs.Overlay

namespace LayeredConfig.Hierarchy

variable (h base : Hierarchy)

/-- The only import of the document is that of `base`, from which no import leads back to it. -/
structure Inherits : Prop where
  settings : base.settings = h.settings
  tree : base.tree = h.tree
  content : Import.readDocument h.tree base.root = .ok base.content
  only : ∃ line ∈ h.lines h.root, h.Imports line.1 base.root ∧
    ∀ l ∈ h.lines h.root, Line.IsImport l.1 → l = line
  back : ¬base.Reaches h.root

def own : List Directive :=
  ((h.lines h.root).filter (Line.IsContent ·.1)).map fun line =>
    Line.directive h.settings.commentPolicy h.root line.1 line.2 0

variable {h base} {u v file : Location} {raw : String} {n k : Nat} {d : Directive}

theorem mem_own_iff : d ∈ h.own ↔ ∃ raw n, (raw, n) ∈ h.lines h.root ∧ Line.IsContent raw ∧
    d = Line.directive h.settings.commentPolicy h.root raw n 0 := by
  simp only [own, List.mem_map, List.mem_filter, decide_eq_true_eq, Prod.exists, and_assoc, eq_comm (a := d)]

theorem depth_of_mem_own (hd : d ∈ h.own) : d.depth = 0 := by
  obtain ⟨_, _, _, _, rfl⟩ := mem_own_iff.1 hd
  rfl

theorem depth_pos_of_mem_deepen (hd : d ∈ base.directives.map Directive.deepen) : 0 < d.depth := by
  obtain ⟨e, he, rfl⟩ := List.mem_map.1 hd
  exact Int.lt_add_one_of_le (depth_nonneg he)

theorem file_of_mem_own (hd : d ∈ h.own) : d.file = .ofLocation h.root := by
  obtain ⟨_, _, _, _, rfl⟩ := mem_own_iff.1 hd
  rfl

theorem line_lt_own (h : Hierarchy) : h.own.Pairwise fun d e => d.line < e.line := by
  rw [own, List.pairwise_map, lines_root]
  refine ((Text.zipIdx_pairwise (Text.lines h.content) 1).filter _).imp ?_
  exact fun hlt => Int.ofNat_lt.2 hlt

theorem own_pairwise_precedes (h : Hierarchy) : h.own.Pairwise fun a b => Precedence.precedes a b := by
  refine (line_lt_own h).imp_of_mem fun ha hb hlt => ?_
  simp [Precedence.precedes, depth_of_mem_own ha, depth_of_mem_own hb, hlt]

theorem nodup_own_anchors (h : Hierarchy) : (h.own.map Directive.anchor).Nodup := by
  rw [List.nodup_iff_pairwise_ne, List.pairwise_map]
  exact (line_lt_own h).imp fun hlt he => hlt.ne (Prod.mk.inj he).2

theorem pairwise_precedes (h base : Hierarchy) :
    (base.directives.map Directive.deepen ++ h.own).Pairwise fun a b => Precedence.precedes a b := by
  rw [List.pairwise_append, List.pairwise_map]
  refine ⟨?_, own_pairwise_precedes h, ?_⟩
  · refine (Precedence.order_pairwise base.stream.directives).imp fun hab => ?_
    rwa [Precedence.precedes_deepen]
  · intro a ha b hb
    have hlt := depth_pos_of_mem_deepen ha
    simp [Precedence.precedes, depth_of_mem_own hb, hlt]

namespace Inherits

variable (hi : h.Inherits base)

include hi

theorem ne_root (hv : base.Reaches v) : v ≠ h.root := fun he => hi.back (he ▸ hv)

theorem lines_eq (hv : v ≠ h.root) : base.lines v = h.lines v := by
  by_cases hb : v = base.root
  · rw [hb] at hv ⊢
    rw [lines_root, lines_of_ne_root hv hi.content]
  · rw [lines, lines, text?, text?, if_neg hv, if_neg hb, hi.tree]

theorem imports_iff : base.Imports raw v ↔ h.Imports raw v := by
  rw [Imports, Imports, hi.settings, hi.tree]

theorem edge_iff (hu : u ≠ h.root) : base.Edge u v ↔ h.Edge u v := by
  simp only [Edge, hi.lines_eq hu, hi.imports_iff]

theorem edge_root_iff : h.Edge h.root v ↔ v = base.root := by
  obtain ⟨line, hl, himports, honly⟩ := hi.only
  constructor
  · rintro ⟨raw, n, hl', hv⟩
    obtain rfl := honly _ hl' hv.1
    exact Option.some.inj (Except.ok.inj (hv.2.1.symm.trans himports.2.1))
  · rintro rfl
    exact ⟨line.1, line.2, hl, himports⟩

theorem isPath_iff {p : List Location} : h.IsPath (h.root :: (p ++ [v])) ↔ base.IsPath (p ++ [v]) := by
  induction p using List.reverseRecOn generalizing v with
  | nil =>
      have hroot : h.IsPath ([] ++ [h.root] ++ [v]) ↔ v = base.root := by
        rw [isPath_append_singleton_iff, hi.edge_root_iff, List.nil_append, isPath_singleton_iff,
          List.mem_singleton, and_iff_right rfl]
        exact and_iff_left_of_imp fun hv => hv ▸ hi.ne_root .refl
      exact hroot.trans isPath_singleton_iff.symm
  | append_singleton p u ih =>
      rw [isPath_append_singleton_iff, ← ih, ← List.cons_append, ← List.cons_append,
        isPath_append_singleton_iff]
      refine and_congr_right fun hp => ?_
      have hu := (ih.1 hp).reaches
      rw [hi.edge_iff (hi.ne_root hu)]
      refine and_congr_right fun he => ?_
      -- No way of `base` comes back to the document, so it can stand before each of them.
      have hv := hi.ne_root (hu.tail ((hi.edge_iff (hi.ne_root hu)).2 he))
      rw [List.cons_append, List.mem_cons, not_or, and_iff_right hv]

theorem mem_pathLengths_iff : k ∈ h.pathLengths file ↔
    k = 0 ∧ file = h.root ∨ ∃ m ∈ base.pathLengths file, k = m + 1 := by
  rw [Hierarchy.mem_pathLengths_iff]
  constructor
  · rintro ⟨p, hp, rfl⟩
    cases p with
    | nil => exact .inl ⟨rfl, isPath_singleton_iff.1 hp⟩
    | cons a p =>
        obtain rfl : a = h.root := by simpa using hp.head
        exact .inr ⟨p.length, length_mem_pathLengths (hi.isPath_iff.1 hp), rfl⟩
  · rintro (⟨rfl, rfl⟩ | ⟨m, hm, rfl⟩)
    · exact ⟨[], isPath_singleton_iff.2 rfl, rfl⟩
    · obtain ⟨p, hp, rfl⟩ := Hierarchy.mem_pathLengths_iff.1 hm
      exact ⟨h.root :: p, hi.isPath_iff.2 hp, rfl⟩

theorem isGreatest_iff : IsGreatest (h.pathLengths file) k ↔
    k = 0 ∧ file = h.root ∨ ∃ m, IsGreatest (base.pathLengths file) m ∧ k = m + 1 := by
  constructor
  · rintro ⟨hk, hmax⟩
    refine (hi.mem_pathLengths_iff.1 hk).imp_right ?_
    rintro ⟨m, hm, rfl⟩
    refine ⟨m, ⟨hm, fun l hl => ?_⟩, rfl⟩
    exact Nat.le_of_succ_le_succ (hmax (hi.mem_pathLengths_iff.2 (.inr ⟨l, hl, rfl⟩)))
  · rintro (⟨rfl, rfl⟩ | ⟨m, ⟨hm, hmax⟩, rfl⟩)
    · refine ⟨hi.mem_pathLengths_iff.2 (.inl ⟨rfl, rfl⟩), fun l hl => ?_⟩
      obtain ⟨rfl, _⟩ | ⟨m, hm, _⟩ := hi.mem_pathLengths_iff.1 hl
      · exact le_rfl
      · obtain ⟨p, hp, _⟩ := Hierarchy.mem_pathLengths_iff.1 hm
        exact absurd hp.reaches hi.back
    · refine ⟨hi.mem_pathLengths_iff.2 (.inr ⟨m, hm, rfl⟩), fun l hl => ?_⟩
      obtain ⟨rfl, _⟩ | ⟨m', hm', rfl⟩ := hi.mem_pathLengths_iff.1 hl
      · exact Nat.zero_le _
      · exact Nat.succ_le_succ (hmax hm')

theorem deepen_directive (raw : String) (n m : Nat) :
    (Line.directive base.settings.commentPolicy file raw n m).deepen =
      Line.directive h.settings.commentPolicy file raw n (m + 1) := by
  simp only [Directive.deepen, Line.directive, hi.settings, Int.natCast_succ]

theorem mem_directives_iff : d ∈ h.directives ↔ d ∈ base.directives.map Directive.deepen ++ h.own := by
  rw [Hierarchy.mem_directives_iff, List.mem_append, List.mem_map]
  constructor
  · rintro ⟨file, raw, n, k, hl, hc, hk, rfl⟩
    obtain ⟨rfl, rfl⟩ | ⟨m, hm, rfl⟩ := hi.isGreatest_iff.1 hk
    · exact .inr (mem_own_iff.2 ⟨raw, n, hl, hc, rfl⟩)
    · rw [← hi.lines_eq (hi.ne_root (reaches_of_isGreatest hm))] at hl
      exact .inl ⟨_, Hierarchy.mem_directives_iff.2 ⟨file, raw, n, m, hl, hc, hm, rfl⟩,
        hi.deepen_directive raw n m⟩
  · rintro (⟨d, hd, rfl⟩ | hd)
    · obtain ⟨file, raw, n, m, hl, hc, hm, rfl⟩ := line_of_mem_directives hd
      rw [hi.lines_eq (hi.ne_root (reaches_of_isGreatest hm))] at hl
      exact ⟨file, raw, n, m + 1, hl, hc, hi.isGreatest_iff.2 (.inr ⟨m, hm, rfl⟩),
        hi.deepen_directive raw n m⟩
    · obtain ⟨raw, n, hl, hc, rfl⟩ := mem_own_iff.1 hd
      exact ⟨h.root, raw, n, 0, hl, hc, hi.isGreatest_iff.2 (.inl ⟨rfl, rfl⟩), rfl⟩

theorem file_ne_root (hd : d ∈ base.directives) : d.file ≠ .ofLocation h.root := by
  obtain ⟨file, raw, n, m, _, _, hm, rfl⟩ := line_of_mem_directives hd
  exact fun he => hi.ne_root (reaches_of_isGreatest hm) (Path.ofLocation_inj.1 he)

theorem nodup_anchors : ((base.directives.map Directive.deepen ++ h.own).map Directive.anchor).Nodup := by
  have hdeepen : (base.directives.map Directive.deepen).map Directive.anchor =
      base.directives.map Directive.anchor := List.map_map
  rw [List.map_append, hdeepen, List.nodup_append]
  refine ⟨Precedence.nodup_order _, nodup_own_anchors h, ?_⟩
  · intro a ha b hb hab
    obtain ⟨d, hd, rfl⟩ := List.mem_map.1 ha
    obtain ⟨e, he, rfl⟩ := List.mem_map.1 hb
    exact hi.file_ne_root hd ((Prod.mk.inj hab).1.trans (file_of_mem_own he))

theorem directives_eq : h.directives = base.directives.map Directive.deepen ++ h.own :=
  (Precedence.eq_order (pairwise_precedes h base) hi.nodup_anchors fun _ =>
    hi.mem_directives_iff.symm).symm

theorem config_eq : Effective.config h.directives = (Effective.config base.directives).overlay h.own := by
  rw [hi.directives_eq, Effective.config_append (fun _ => depth_pos_of_mem_deepen)
    (fun _ => depth_of_mem_own), Effective.config_deepen]

theorem override_issues_eq : ∃ is : List Issue, Override.issues h.settings.root h.directives =
      (Override.issues base.settings.root base.directives).map Issue.deepen ++ is ∧
    ∀ i ∈ is, i.file = .ofLocation h.root := by
  obtain ⟨is, his, hown⟩ := Override.issues_append h.settings.root base.directives h.own
  refine ⟨is, by rw [hi.directives_eq, his, hi.settings], fun i hmem => ?_⟩
  obtain ⟨e, he, ha⟩ := hown i hmem
  exact (Prod.mk.inj ha).1.trans (file_of_mem_own he)

theorem overlong_iff : base.Overlong raw ↔ h.Overlong raw := by
  rw [Overlong, Overlong, hi.settings, hi.tree]

theorem searched (hs : h.Searched) : base.Searched := by
  intro file hfile line hl hlong
  have hreaches : h.Reaches file := by
    obtain ⟨p, hp⟩ := hfile.exists_isPath
    exact IsPath.reaches (p := h.root :: p) (hi.isPath_iff.2 hp)
  rw [hi.lines_eq (hi.ne_root hfile)] at hl
  exact hs file hreaches line hl (hi.overlong_iff.1 hlong)

theorem readFrom_ofLocation (hs : h.Searched) (hc : h.tree.Closed) :
    base.ReadFrom (.ofLocation base.root) none := by
  obtain ⟨_, _, himports, _⟩ := hi.only
  refine ⟨⟨?_, ?_⟩, hi.searched hs⟩
  · rw [hi.tree, Document.locate, hc.canonical_ofLocation himports.mem_files]
    rfl
  · rw [hi.tree, Document.text, hi.content]
    rfl

end Inherits

/-- Of two documents, one of which imports the other and no more, the first comes to what the second comes
to with its own lines laid over it. -/
theorem inheritance_is_overlay {path : Path} {given : Option String} (hr : h.ReadFrom path given)
    (hi : h.Inherits base) :
    (h.tree.Closed → base.ReadFrom (.ofLocation base.root) none) ∧
    ∀ path' : Path, base.ReadFrom path' none → ∃ ds c is is' rest,
      Document.directives h.settings h.tree path' none = .ok ds ∧
      Document.directives h.settings h.tree path given = .ok (ds.map Directive.deepen ++ h.own) ∧
      Document.config h.settings h.tree path' none = .ok c ∧
      Document.config h.settings h.tree path given = .ok (c.overlay h.own) ∧
      Document.issues h.settings h.tree path' none = .ok is ∧
      Document.issues h.settings h.tree path given = .ok is' ∧
      is'.filter (fun i => i.kind = .redefinedWithoutExclusion ∨ i.kind = .unnecessaryRedefinition) =
        (is.filter fun i => i.kind = .redefinedWithoutExclusion ∨
          i.kind = .unnecessaryRedefinition).map Issue.deepen ++ rest ∧
      ∀ i ∈ rest, i.file = .ofLocation h.root := by
  refine ⟨hi.readFrom_ofLocation hr.searched, fun path' hb => ?_⟩
  have hds := hb.directives
  have hc := hb.config
  have his := hb.issues
  rw [hi.settings, hi.tree] at hds hc his
  obtain ⟨rest, hoverride, hrest⟩ := hi.override_issues_eq
  refine ⟨_, _, _, _, rest, hds, ?_, hc, ?_, his, hr.issues, ?_, hrest⟩
  · rw [hr.directives, hi.directives_eq]
  · rw [hr.config, hi.config_eq]
  · rw [filter_override, filter_override, hoverride]

def middle : Hierarchy := { layered with root := place "/w/m/mid", content := "!base\n-A" }

theorem middle_not_reaches : ¬middle.Reaches layered.root := by
  intro hd
  have hmem : layered.root ∈ ["/w/m/mid", "/w/m/base"].map place :=
    hd.mem_of_closed (by decide +kernel) (by decide +kernel)
  exact absurd hmem (by decide +kernel)

theorem layered_inherits : layered.Inherits middle where
  settings := rfl
  tree := rfl
  content := by decide +kernel
  only := ⟨("!mid", 1), by decide +kernel⟩
  back := middle_not_reaches

theorem layered_closed : layered.tree.Closed := ⟨by decide +kernel, by decide +kernel⟩

def lowest : Hierarchy := { layered with root := place "/w/m/base", content := "A=1\nB=1\nC=1" }

theorem lowest_directives : lowest.directives =
    [("A=1", 1), ("B=1", 2), ("C=1", 3)].map fun line =>
      Line.directive .inclusion (place "/w/m/base") line.1 line.2 0 :=
  (Precedence.eq_order_of_perm (by decide +kernel) (by decide +kernel) (by decide +kernel)).symm

theorem middle_inherits : middle.Inherits lowest where
  settings := rfl
  tree := rfl
  content := by decide +kernel
  only := ⟨("!base", 1), by decide +kernel⟩
  back hd := by
    have hmem : middle.root ∈ [lowest.root] := hd.mem_of_closed (by decide +kernel) (by decide +kernel)
    exact absurd hmem (by decide +kernel)

theorem middle_config : Effective.config middle.directives = ⟨[("B", "1"), ("C", "1")]⟩ := by
  rw [middle_inherits.config_eq, lowest_directives, Effective.config_of_level (k := 0) (by decide +kernel)]
  decide +kernel

/-- The document `d` takes `A` and `C` back from what `mid` comes to, and adds them and `B` at the end. -/
theorem layered_inheritance_is_overlay :
    layered.ReadFrom (.ofString "d") none ∧ layered.Inherits middle ∧ layered.tree.Closed ∧
      Document.config layered.settings layered.tree (.ofLocation middle.root) none =
        .ok ⟨[("B", "1"), ("C", "1")]⟩ ∧
      Document.config layered.settings layered.tree (.ofString "d") none =
        .ok ⟨[("A", "1"), ("C", "1"), ("B", "2")]⟩ ∧
      ∃ ds,
        Document.directives layered.settings layered.tree (.ofLocation middle.root) none = .ok ds ∧
        Document.directives layered.settings layered.tree (.ofString "d") none =
          .ok (ds.map Directive.deepen ++ layered.own) := by
  obtain ⟨hmiddle, hoverlay⟩ := inheritance_is_overlay layered_readFrom layered_inherits
  obtain ⟨ds, c, _, _, _, hds, hds', hc, hc', _⟩ := hoverlay _ (hmiddle layered_closed)
  obtain rfl : c = ⟨[("B", "1"), ("C", "1")]⟩ :=
    (Except.ok.inj (hc.symm.trans (hmiddle layered_closed).config)).trans middle_config
  have hentries : Config.overlay ⟨[("B", "1"), ("C", "1")]⟩ layered.own =
      ⟨[("A", "1"), ("C", "1"), ("B", "2")]⟩ := by decide +kernel
  rw [hentries] at hc'
  exact ⟨layered_readFrom, layered_inherits, layered_closed, hc, hc', ds, hds, hds'⟩

end LayeredConfig.Hierarchy
