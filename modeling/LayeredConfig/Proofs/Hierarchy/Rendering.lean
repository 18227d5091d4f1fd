import LayeredConfig.Proofs.Effective
import LayeredConfig.Proofs.Hierarchy.Issues
import LayeredConfig.Proofs.Line
import LayeredConfig.Proofs.Text.Lines

namespace LayeredConfig

namespace Line

/-- A text that an inclusion can have as its key, written as it is. -/
structure IsKey (key : String) : Prop where
  ne_empty : key ≠ ""
  trimmed : Text.trim key = key
  equals : '=' ∉ key.toList
  newline : '\n' ∉ key.toList
  marker : key.toList.head?.all fun c => ¬isMarker c

/-- A text that can stand at the end of a line as a value. -/
structure IsValue (value : String) : Prop where
  newline : '\n' ∉ value.toList
  last : value.toList.getLast?.all fun c => ¬Text.isBlank c

def entry (key value : String) : String := if value = "" then key else s!"{key}={value}"

variable {key value : String}

theorem toList_entry (key value : String) : (entry key value).toList =
    key.toList ++ if value = "" then [] else '=' :: value.toList := by
  unfold entry
  split
  · rw [List.append_nil]
  · change (key ++ "=" ++ value).toList = _
    rw [String.toList_append, String.toList_append, List.append_assoc]
    rfl

theorem IsKey.exists_cons (hk : IsKey key) : ∃ c cs, key.toList = c :: cs ∧ ¬Text.isBlank c ∧ ¬isMarker c := by
  have hne : key.toList ≠ [] := by simpa using hk.ne_empty
  obtain ⟨c, cs, hcs⟩ := List.exists_cons_of_ne_nil hne
  have htrim : Text.trimChars (c :: cs) = c :: cs := by
    rw [← hcs, ← Text.toList_trim, hk.trimmed]
  exact ⟨c, cs, hcs, Text.not_isBlank_of_trimChars htrim, by simpa [hcs] using hk.marker⟩

theorem notMem_entry (hk : IsKey key) (hv : IsValue value) : '\n' ∉ (entry key value).toList := by
  rw [toList_entry, List.mem_append, not_or]
  refine ⟨hk.newline, ?_⟩
  split
  · exact List.not_mem_nil
  · exact fun h => (List.mem_cons.1 h).elim (by decide) hv.newline

theorem trim_entry (hk : IsKey key) (hv : IsValue value) : Text.trim (entry key value) = entry key value := by
  by_cases hempty : value = ""
  · rw [entry, if_pos hempty, hk.trimmed]
  · obtain ⟨c, cs, hcs, hblank, -⟩ := hk.exists_cons
    have hchars : (entry key value).toList = c :: (cs ++ '=' :: value.toList) := by
      rw [toList_entry, if_neg hempty, hcs, List.cons_append]
    have hne : value.toList ≠ [] := by simpa using hempty
    have htrim : Text.trimChars (entry key value).toList = (entry key value).toList := by
      refine Text.trimChars_eq_self ?_ ?_
      · intro d hd
        rw [hchars] at hd
        obtain rfl := Option.some.inj hd
        exact hblank
      · rw [toList_entry, if_neg hempty, List.getLast?_append_of_ne_nil _ (List.cons_ne_nil _ _),
          List.getLast?_cons_of_ne_nil hne]
        intro d hd
        simpa [hd] using hv.last
    rw [Text.trim, htrim, String.ofList_toList]

theorem ofText_entry (hk : IsKey key) (value : String) (policy : CommentPolicy) :
    LineKind.ofText policy (entry key value) = .inclusion := by
  obtain ⟨c, cs, hcs, -, hmarker⟩ := hk.exists_cons
  simp only [isMarker, Bool.or_eq_true, decide_eq_true_eq, not_or] at hmarker
  rw [LineKind.ofText, toList_entry, hcs, List.cons_append]
  unfold LineKind.ofChars
  split <;> simp_all

theorem key_entry (hk : IsKey key) (hv : IsValue value) : Line.key (entry key value) = key := by
  obtain ⟨c, cs, hcs, -, hmarker⟩ := hk.exists_cons
  have hrest : (cs ++ if value = "" then [] else '=' :: value.toList).takeWhile (· ≠ '=') = cs := by
    have hequals : ∀ d ∈ cs, decide (d ≠ '=') := fun d hd =>
      decide_eq_true fun he => hk.equals (hcs ▸ List.mem_cons_of_mem c (he ▸ hd))
    rw [List.takeWhile_append_of_pos hequals]
    split <;> simp
  have hmarked : dropMarker (entry key value).toList =
      c :: (cs ++ if value = "" then [] else '=' :: value.toList) := by
    rw [toList_entry, hcs, List.cons_append]
    unfold dropMarker
    split
    · simp_all
    · rfl
  rw [Line.key, keyChars_of_notMem (notMem_entry hk hv) hmarked, hrest, ← hcs, String.ofList_toList]

theorem value_entry (hk : IsKey key) (value : String) : Line.value (entry key value) = value := by
  rw [Line.value, toList_entry, valueChars_append hk.equals]
  split
  · rename_i hempty
    rw [hempty]
    rfl
  · exact String.ofList_toList

theorem directive_entry (hk : IsKey key) (hv : IsValue value) (policy : CommentPolicy) (file : Location)
    (n depth : Nat) : directive policy file (entry key value) n depth =
      ⟨.ofLocation file, n, depth, .inclusion, key, value, entry key value⟩ := by
  simp only [directive, trim_entry hk hv, ofText_entry hk, key_entry hk hv, value_entry hk]

theorem isContent_entry (hk : IsKey key) (hv : IsValue value) : IsContent (entry key value) := by
  obtain ⟨c, cs, hcs, -, hmarker⟩ := hk.exists_cons
  have hhead : (entry key value).toList.head? = some c := by
    rw [toList_entry, hcs]
    rfl
  rw [IsContent, IsImport, trim_entry hk hv, hhead]
  refine ⟨fun hempty => ?_, fun himport => ?_⟩
  · simp [hempty] at hhead
  · exact hmarker (by rw [Option.some.inj himport]; rfl)

end Line

theorem Stream.flatMap_of_isContent {s : Settings} {t : FileTree} {importers : List Location} {file : Location}
    {lines : List String} (h : ∀ raw ∈ lines, Line.IsContent raw) (k : Nat) :
    (lines.zipIdx k).flatMap (fun line => expandLine s t importers file line.1 line.2) =
      (lines.zipIdx k).map fun line =>
        .directive (Line.directive s.commentPolicy file line.1 line.2 importers.length) := by
  induction lines generalizing k with
  | nil => rfl
  | cons raw lines ih =>
      obtain ⟨hraw, h⟩ := List.forall_mem_cons.1 h
      rw [List.zipIdx_cons, List.flatMap_cons, List.map_cons, ih h, expandLine, readLine_of_isContent hraw]
      rfl

namespace Config

/-- A map whose entries can be written and read. -/
structure IsRenderable (c : Config) : Prop where
  nodup : (c.entries.map Prod.fst).Nodup
  key : ∀ e ∈ c.entries, Line.IsKey e.1
  value : ∀ e ∈ c.entries, Line.IsValue e.2

def entryLines (c : Config) : List String := c.entries.map fun e => Line.entry e.1 e.2

variable {c : Config}

theorem renderEntry_eq (key value : String) : renderEntry key value = Line.entry key value ++ "\n" := by
  unfold renderEntry Line.entry
  split <;> rfl

theorem lines_render (hc : c.IsRenderable) : Text.lines c.render = c.entryLines ++ [""] := by
  obtain ⟨es⟩ := c
  obtain ⟨-, hkey, hvalue⟩ := hc
  unfold render entryLines
  dsimp only at hkey hvalue ⊢
  induction es with
  | nil => decide
  | cons e es ih =>
      obtain ⟨hk, hkey⟩ := List.forall_mem_cons.1 hkey
      obtain ⟨hv, hvalue⟩ := List.forall_mem_cons.1 hvalue
      have hline : Text.lines (Line.entry e.1 e.2) = [Line.entry e.1 e.2] :=
        Text.lines_of_notMem (Line.notMem_entry hk hv)
      rw [List.map_cons, String.join_cons, renderEntry_eq, Text.lines_append_newline, hline, ih hkey hvalue]
      rfl

theorem isContent_of_mem_entryLines (hc : c.IsRenderable) {raw : String} (hraw : raw ∈ c.entryLines) :
    Line.IsContent raw := by
  obtain ⟨e, he, rfl⟩ := List.mem_map.1 hraw
  exact Line.isContent_entry (hc.key e he) (hc.value e he)

def directives (root : Location) (c : Config) : List Directive :=
  (c.entries.zipIdx 1).map fun e =>
    ⟨.ofLocation root, e.2, 0, .inclusion, e.1.1, e.1.2, Line.entry e.1.1 e.1.2⟩

theorem map_directives {α : Type} (root : Location) (c : Config) {f : Directive → α} {g : String × String → α}
    (hfg : ∀ n key value, f ⟨.ofLocation root, n, 0, .inclusion, key, value, Line.entry key value⟩ =
      g (key, value)) : (c.directives root).map f = c.entries.map g := by
  calc (c.directives root).map f = (c.entries.zipIdx 1).map (g ∘ Prod.fst) := by
        rw [directives, List.map_map]
        exact List.map_congr_left fun e _ => hfg e.2 e.1.1 e.1.2
    _ = ((c.entries.zipIdx 1).map Prod.fst).map g := List.map_map.symm
    _ = c.entries.map g := by rw [List.zipIdx_map_fst]

theorem mem_directives {root : Location} {d : Directive} (hd : d ∈ c.directives root) :
    d.file = .ofLocation root ∧ d.depth = 0 ∧ d.kind = .inclusion := by
  obtain ⟨e, _, rfl⟩ := List.mem_map.1 hd
  exact ⟨rfl, rfl, rfl⟩

theorem directives_pairwise (root : Location) (c : Config) :
    (c.directives root).Pairwise fun a b => a.line < b.line :=
  List.pairwise_map.2 ((Text.zipIdx_pairwise c.entries 1).imp Int.ofNat_lt.2)

theorem order_directives (root : Location) (c : Config) :
    Precedence.order (c.directives root) = c.directives root := by
  have hlines := directives_pairwise root c
  refine Precedence.order_of_pairwise (hlines.imp_of_mem fun ha hb hlt => ?_) ?_
  · simp [Precedence.precedes, (mem_directives ha).2.1, (mem_directives hb).2.1, hlt]
  · refine List.pairwise_map.2 (hlines.imp ?_)
    intro a b hlt he
    exact Int.ne_of_lt hlt (Prod.mk.inj he).2

variable (hc : c.IsRenderable) (root : Location)

include hc

theorem nodup_keys_directives : ((c.directives root).map (·.key)).Nodup := by
  rw [map_directives root c (g := Prod.fst) fun _ _ _ => rfl]
  exact hc.nodup

theorem nodup_texts_directives : ((c.directives root).map (·.text)).Nodup := by
  rw [map_directives root c (g := fun e => Line.entry e.1 e.2) fun _ _ _ => rfl]
  have hkeys : (c.entries.map fun e => Line.entry e.1 e.2).map Line.key = c.entries.map Prod.fst := by
    rw [List.map_map]
    exact List.map_congr_left fun e he => Line.key_entry (hc.key e he) (hc.value e he)
  exact List.Nodup.of_map Line.key (hkeys ▸ hc.nodup)

theorem config_directives : Effective.config (c.directives root) = c := by
  rw [Effective.config_of_inclusions (fun d hd => (mem_directives hd).2.1) (fun d hd => (mem_directives hd).2.2)
    (nodup_keys_directives hc root), map_directives root c (g := id) fun _ _ _ => rfl, List.map_id]

theorem flatMap_entryLines (s : Settings) (t : FileTree) :
    (c.entryLines.zipIdx 1).flatMap (fun line => Stream.expandLine s t [] root line.1 line.2) =
      (c.directives root).map Item.directive := by
  rw [Stream.flatMap_of_isContent fun raw => isContent_of_mem_entryLines hc, entryLines, List.zipIdx_map,
    directives, List.map_map, List.map_map]
  refine List.map_congr_left fun e he => ?_
  have hmem : e.1 ∈ c.entries := List.fst_mem_of_mem_zipIdx he
  exact congrArg Item.directive (Line.directive_entry (hc.key e.1 hmem) (hc.value e.1 hmem) _ root e.2 0)

theorem items_render (s : Settings) (t : FileTree) :
    Stream.items s t root c.render = (c.directives root).map Item.directive := by
  have hlast : ([""].zipIdx (1 + c.entryLines.length)).flatMap
      (fun line => Stream.expandLine s t [] root line.1 line.2) = [] := by
    have hblank : Text.trim "" = "" := by decide
    rw [List.zipIdx_singleton, List.flatMap_singleton, Stream.expandLine, Stream.readLine_of_blank hblank]
  rw [Stream.items, lines_render hc, Stream.expand_eq_flatMap, List.zipIdx_append, List.flatMap_append,
    flatMap_entryLines hc, hlast, List.append_nil]

theorem failure?_render (s : Settings) (t : FileTree) : Stream.failure? s t root c.render = none := by
  rw [Stream.failure?, items_render hc, List.findSome?_map]
  exact List.findSome?_eq_none_iff.2 fun _ _ => rfl

theorem ofText_render (s : Settings) (t : FileTree) :
    Stream.ofText s t root c.render = ⟨root, c.directives root, []⟩ := by
  have hdirectives : ((c.directives root).map Item.directive).filterMap Item.directive? = c.directives root := by
    rw [List.filterMap_map]
    exact List.filterMap_some
  have hissues : ((c.directives root).map Item.directive).filterMap Item.issue? = [] := by
    rw [List.filterMap_map]
    exact List.filterMap_eq_nil_iff.2 fun _ _ => rfl
  rw [Stream.ofText, items_render hc, Stream.ofItems, hdirectives, hissues]

end Config

namespace Document

variable {c : Config}

/-- Where a document can be found at all, the configuration that is written into it is what it comes to, with
its keys in their order, and nothing is reported. -/
theorem rendered_config_reads_back (hc : c.IsRenderable) (s : Settings) (t : FileTree) (path : Path) :
    config s t path (some c.render) = (fun _ => c) <$> locate t path ∧
      issues s t path (some c.render) = (fun _ => []) <$> locate t path := by
  have hdirectives (root : Location) : Hierarchy.directives ⟨s, t, root, c.render⟩ = c.directives root := by
    rw [Hierarchy.directives, Hierarchy.stream, Config.ofText_render hc, Config.order_directives]
  have hsearched (root : Location) : Hierarchy.Searched ⟨s, t, root, c.render⟩ :=
    Hierarchy.failure?_eq_none_iff.1 (Config.failure?_render hc root s t)
  constructor
  · simp only [config_some, hdirectives, Config.config_directives hc, (hsearched _).settle]
    rfl
  · have hissues (root : Location) : Hierarchy.issues ⟨s, t, root, c.render⟩ = [] := by
      rw [Hierarchy.issues_eq, hdirectives, Override.issues_eq_nil (Config.nodup_keys_directives hc root),
        Duplicate.issues_eq_nil (Config.nodup_texts_directives hc root), Hierarchy.stream,
        Config.ofText_render hc]
      rfl
    simp only [issues_some, hissues, (hsearched _).settle]
    rfl

/-- A value may be empty, and it may hold `=` and open with blanks. -/
def assorted : Config := ⟨[("B", "x=y"), ("A", ""), ("C D", "  1")]⟩

theorem assorted_isRenderable : assorted.IsRenderable where
  nodup := by decide +kernel
  key := by
    intro e he
    simp only [assorted, List.mem_cons, List.not_mem_nil, or_false] at he
    rcases he with rfl | rfl | rfl
    all_goals constructor <;> decide +kernel
  value := by
    intro e he
    simp only [assorted, List.mem_cons, List.not_mem_nil, or_false] at he
    rcases he with rfl | rfl | rfl
    all_goals constructor <;> decide +kernel

open Hierarchy (layered)

theorem assorted_reads_back :
    assorted.IsRenderable ∧
      config layered.settings layered.tree (.ofString "d") (some assorted.render) = .ok assorted ∧
      issues layered.settings layered.tree (.ofString "d") (some assorted.render) = .ok [] := by
  obtain ⟨hconfig, hissues⟩ :=
    rendered_config_reads_back assorted_isRenderable layered.settings layered.tree (.ofString "d")
  have hlocate : locate layered.tree (.ofString "d") = .ok layered.root := by decide +kernel
  rw [hlocate] at hconfig hissues
  exact ⟨assorted_isRenderable, hconfig, hissues⟩

end Document

end LayeredConfig
