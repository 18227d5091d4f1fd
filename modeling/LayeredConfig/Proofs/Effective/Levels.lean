import Mathlib.Data.List.Nodup
import Mathlib.Order.Bounds.Basic
import LayeredConfig.Proofs.Effective

namespace LayeredConfig

namespace Config

/-- What a directive leaves of the entries before it, and what it adds to them. -/
theorem entries_apply (c : Config) (d : Directive) : (c.apply d).entries =
    c.entries.filter (fun e => ¬d.mentions e.1) ++
      if d.kind = .inclusion then [(d.key, d.value)] else [] := by
  have herase : d.isJudged → (c.erase d.key).entries = c.entries.filter fun e => ¬d.mentions e.1 := by
    intro hd
    apply List.filter_congr
    intro e _
    simp [Directive.mentions, hd, eq_comm]
  cases hk : d.kind with
  | inclusion => simp only [apply, hk, insert, if_true, herase (by simp [Directive.isJudged, hk])]
  | exclusion => simp [apply, hk, herase (by simp [Directive.isJudged, hk])]
  | importing => simp [apply, hk, Directive.mentions, Directive.isJudged]
  | comment => simp [apply, hk, Directive.mentions, Directive.isJudged]

theorem get?_eq_some_iff {c : Config} (hc : (c.entries.map Prod.fst).Nodup) {key value : String} :
    c.get? key = some value ↔ (key, value) ∈ c.entries := by
  rw [get?, Option.map_eq_some_iff]
  constructor
  · rintro ⟨e, he, rfl⟩
    obtain rfl : e.1 = key := by simpa using List.find?_some he
    exact List.mem_of_find?_eq_some he
  · intro he
    obtain ⟨e, hfind⟩ : ∃ e, c.entries.find? (·.1 = key) = some e :=
      Option.isSome_iff_exists.1 (List.find?_isSome.2 ⟨_, he, by simp⟩)
    have hkey : e.1 = key := by simpa using List.find?_some hfind
    have hsame := List.inj_on_of_nodup_map hc (List.mem_of_find?_eq_some hfind) he hkey
    exact ⟨e, hfind, congrArg Prod.snd hsame⟩

end Config

namespace Effective

variable {ds before after : List Directive} {ps : List (Directive × Nat)} {p : Directive × Nat}
  {d : Directive} {n : Nat} {key : String}

/-- The inclusions after which nothing mentions their key any more. -/
def lasting : List (Directive × Nat) → List (Directive × Nat)
  | [] => []
  | p :: ps =>
      if p.1.kind = .inclusion ∧ ∀ q ∈ ps, ¬q.1.mentions p.1.key then p :: lasting ps else lasting ps

theorem lasting_sublist (ps : List (Directive × Nat)) : (lasting ps).Sublist ps := by
  induction ps with
  | nil => exact .slnil
  | cons p ps ih =>
      rw [lasting]
      split
      · exact ih.cons_cons p
      · exact ih.cons p

theorem mem_lasting_iff : p ∈ lasting ps ↔ ∃ before after, ps = before ++ p :: after ∧
    p.1.kind = .inclusion ∧ ∀ q ∈ after, ¬q.1.mentions p.1.key := by
  induction ps with
  | nil => simp [lasting]
  | cons q ps ih =>
      constructor
      · intro hp
        by_cases hq : q.1.kind = .inclusion ∧ ∀ r ∈ ps, ¬r.1.mentions q.1.key
        · rw [lasting, if_pos hq, List.mem_cons] at hp
          rcases hp with rfl | hp
          · exact ⟨[], ps, rfl, hq⟩
          · obtain ⟨before, after, rfl, hlast⟩ := ih.1 hp
            exact ⟨q :: before, after, rfl, hlast⟩
        · rw [lasting, if_neg hq] at hp
          obtain ⟨before, after, rfl, hlast⟩ := ih.1 hp
          exact ⟨q :: before, after, rfl, hlast⟩
      · intro ⟨before, after, hps, hlast⟩
        cases before with
        | nil =>
            obtain ⟨rfl, rfl⟩ := List.cons.inj hps
            rw [lasting, if_pos hlast]
            exact List.mem_cons_self
        | cons r before =>
            obtain ⟨rfl, rfl⟩ := List.cons.inj hps
            have hp := ih.2 ⟨before, after, rfl, hlast⟩
            rw [lasting]
            split
            · exact List.mem_cons_of_mem q hp
            · exact hp

theorem entries_foldl_apply (c : Config) (ps : List (Directive × Nat)) :
    ((ps.map Prod.fst).foldl Config.apply c).entries =
      c.entries.filter (fun e => ∀ q ∈ ps, ¬q.1.mentions e.1) ++
        (lasting ps).map fun p => (p.1.key, p.1.value) := by
  induction ps generalizing c with
  | nil => simp [lasting]
  | cons p ps ih =>
      have hrest : (c.entries.filter fun e => ¬p.1.mentions e.1).filter
          (fun e => ∀ q ∈ ps, ¬q.1.mentions e.1) =
          c.entries.filter fun e => ∀ q ∈ p :: ps, ¬q.1.mentions e.1 := by
        rw [List.filter_filter]
        apply List.filter_congr
        intro e _
        rw [Bool.eq_iff_iff, Bool.and_eq_true, decide_eq_true_eq, decide_eq_true_eq, decide_eq_true_eq,
          List.forall_mem_cons, and_comm]
      rw [List.map_cons, List.foldl_cons, ih, Config.entries_apply, List.filter_append, hrest,
        List.append_assoc, lasting]
      congr 1
      by_cases hk : p.1.kind = .inclusion
      · by_cases hlast : ∀ q ∈ ps, ¬q.1.mentions p.1.key
        · rw [if_pos hk, if_pos ⟨hk, hlast⟩, List.filter_singleton, decide_eq_true hlast]
          rfl
        · rw [if_pos hk, if_neg fun h => hlast h.2, List.filter_singleton, decide_eq_false hlast]
          rfl
      · rw [if_neg hk, if_neg fun h => hk h.1]
        rfl

/-- An inclusion of the key that no mention of it lies above. -/
def Decides (ds : List Directive) (key : String) (d : Directive) : Prop :=
  d.kind = .inclusion ∧ d.key = key ∧ ∀ e ∈ ds, e.mentions key → d.depth ≤ e.depth

instance (ds : List Directive) (key : String) : DecidablePred (Decides ds key) :=
  fun _ => inferInstanceAs (Decidable (_ ∧ _ ∧ _))

theorem Decides.mentions (h : Decides ds key d) : d.mentions key :=
  Directive.mentions_iff.2 ⟨.inl h.1, h.2.1⟩

def depths (ds : List Directive) (key : String) : Set Int := {k | ∃ d ∈ ds, d.mentions key ∧ d.depth = k}

/-- At place `n` the key of `d` is included for the last time at the shallowest depth that mentions it. -/
structure DecidesAt (ds : List Directive) (d : Directive) (n : Nat) : Prop where
  get : ds[n]? = some d
  kind : d.kind = .inclusion
  shallowest : IsLeast (depths ds d.key) d.depth
  last : ∀ k e, n < k → ds[k]? = some e → e.kind = .inclusion → e.key = d.key → e.depth ≠ d.depth

theorem isLeast_depths_iff (hd : d ∈ ds) (hm : d.mentions key) :
    IsLeast (depths ds key) d.depth ↔ ∀ e ∈ ds, e.mentions key → d.depth ≤ e.depth := by
  constructor
  · intro hleast e he hme
    exact hleast.2 ⟨e, he, hme, rfl⟩
  · intro hle
    refine ⟨⟨d, hd, hm, rfl⟩, ?_⟩
    intro k ⟨e, he, hme, hk⟩
    exact hk ▸ hle e he hme

theorem exists_decides_iff : (∃ d ∈ ds, Decides ds key d) ↔
    ∃ d ∈ ds, d.kind = .inclusion ∧ d.key = key ∧ IsLeast (depths ds key) d.depth := by
  constructor
  · intro ⟨d, hd, hdec⟩
    exact ⟨d, hd, hdec.1, hdec.2.1, (isLeast_depths_iff hd hdec.mentions).2 hdec.2.2⟩
  · intro ⟨d, hd, hk, hkey, hleast⟩
    have hm : d.mentions key := Directive.mentions_iff.2 ⟨.inl hk, hkey⟩
    exact ⟨d, hd, hk, hkey, (isLeast_depths_iff hd hm).1 hleast⟩

/-- The directives in the order in which they apply, with their places. -/
def staged (ds : List Directive) : List (Directive × Nat) := StableSort.placed appliesBefore ds

theorem pairwise_staged (ds : List Directive) : (staged ds).Pairwise fun p q =>
    appliesBefore p.1 q.1 ∧ (appliesBefore q.1 p.1 → p.2 < q.2) :=
  StableSort.pairwise_placed (fun a b c => @appliesBefore_trans a b c) appliesBefore_total ds

theorem mem_staged_iff : (d, n) ∈ staged ds ↔ ds[n]? = some d := StableSort.mem_placed_iff

theorem entries_config (ds : List Directive) :
    (config ds).entries = (lasting (staged ds)).map fun p => (p.1.key, p.1.value) := by
  rw [config, stage, ← StableSort.map_fst_placed, entries_foldl_apply]
  rfl

theorem depth_le_of_appliesBefore {a b : Directive} (h : appliesBefore a b) : b.depth ≤ a.depth := by
  simp only [appliesBefore, Bool.or_eq_true, Bool.and_eq_true, decide_eq_true_eq] at h
  omega

theorem appliesBefore_of_inclusion {a b : Directive} (hdepth : b.depth ≤ a.depth) (hb : b.kind = .inclusion) :
    appliesBefore a b := by
  simp only [appliesBefore, Bool.or_eq_true, Bool.and_eq_true, decide_eq_true_eq, hb]
  have : b.depth < a.depth ∨ a.depth = b.depth := by omega
  simpa using this

theorem kind_eq_inclusion_of_appliesBefore {a b : Directive} (h : appliesBefore a b) (ha : a.kind = .inclusion)
    (hb : b.mentions key) (hdepth : a.depth ≤ b.depth) : b.kind = .inclusion := by
  rcases (Directive.mentions_iff.1 hb).1 with hk | hk
  · exact hk
  · simp only [appliesBefore, Bool.or_eq_true, Bool.and_eq_true, decide_eq_true_eq, ha, hk] at h
    have : ¬b.depth < a.depth := by omega
    simp [this] at h

theorem mem_lasting_staged_iff : (d, n) ∈ lasting (staged ds) ↔ DecidesAt ds d n := by
  rw [mem_lasting_iff]
  constructor
  · intro ⟨before, after, hstaged, hk, hafter⟩
    have hget : ds[n]? = some d := mem_staged_iff.1 (hstaged ▸ List.mem_append_right _ List.mem_cons_self)
    have hsorted := pairwise_staged ds
    rw [hstaged, List.pairwise_append] at hsorted
    have hbefore : ∀ e k, ds[k]? = some e → e.mentions d.key → (e, k) = (d, n) ∨ (e, k) ∈ before := by
      intro e k hek hme
      have hmem : (e, k) ∈ before ++ (d, n) :: after := hstaged ▸ mem_staged_iff.2 hek
      rw [List.mem_append, List.mem_cons] at hmem
      rcases hmem with hmem | hmem | hmem
      · exact .inr hmem
      · exact .inl hmem
      · exact absurd hme (hafter _ hmem)
    have hmd : d.mentions d.key := Directive.mentions_iff.2 ⟨.inl hk, rfl⟩
    refine ⟨hget, hk, (isLeast_depths_iff (List.mem_of_getElem? hget) hmd).2 ?_, ?_⟩
    · intro e he hme
      obtain ⟨k, hek⟩ := List.mem_iff_getElem?.1 he
      rcases hbefore e k hek hme with heq | hmem
      · rw [(Prod.mk.inj heq).1]
      · exact depth_le_of_appliesBefore (hsorted.2.2 _ hmem _ List.mem_cons_self).1
    · intro k e hnk hek hke hkey hdepth
      rcases hbefore e k hek (Directive.mentions_iff.2 ⟨.inl hke, hkey⟩) with heq | hmem
      · exact absurd (Prod.mk.inj heq).2 (Nat.ne_of_gt hnk)
      · have hlt := (hsorted.2.2 _ hmem _ List.mem_cons_self).2
          (appliesBefore_of_inclusion (Int.le_of_eq hdepth) hke)
        exact Nat.lt_asymm hnk hlt
  · intro hd
    obtain ⟨before, after, hstaged⟩ := List.append_of_mem (mem_staged_iff.2 hd.get)
    have hsorted := pairwise_staged ds
    rw [hstaged, List.pairwise_append, List.pairwise_cons] at hsorted
    refine ⟨before, after, hstaged, hd.kind, ?_⟩
    intro ⟨e, k⟩ hmem hme
    obtain ⟨hle, hlt⟩ := hsorted.2.1.1 _ hmem
    have hek : ds[k]? = some e := mem_staged_iff.1 (hstaged ▸ List.mem_append_right _ (.tail _ hmem))
    have hdepth : e.depth = d.depth := Int.le_antisymm (depth_le_of_appliesBefore hle)
      (hd.shallowest.2 ⟨e, List.mem_of_getElem? hek, hme, rfl⟩)
    have hke := kind_eq_inclusion_of_appliesBefore hle hd.kind hme (Int.le_of_eq hdepth.symm)
    have hnk : n < k := hlt (appliesBefore_of_inclusion (Int.le_of_eq hdepth.symm) hd.kind)
    exact hd.last k e hnk hek hke (Directive.mentions_iff.1 hme).2 hdepth

theorem pairwise_lasting_staged (ds : List Directive) : (lasting (staged ds)).Pairwise fun p q =>
    q.1.depth < p.1.depth ∨ p.1.depth = q.1.depth ∧ p.2 < q.2 := by
  refine ((pairwise_staged ds).sublist (lasting_sublist _)).imp_of_mem ?_
  intro p q hp _ ⟨hle, hlt⟩
  have hk : p.1.kind = .inclusion := (mem_lasting_staged_iff.1 hp).kind
  rcases Int.lt_or_eq_of_le (depth_le_of_appliesBefore hle) with hdepth | hdepth
  · exact .inl hdepth
  · exact .inr ⟨hdepth.symm, hlt (appliesBefore_of_inclusion (Int.le_of_eq hdepth.symm) hk)⟩

theorem DecidesAt.unique {e : Directive} {k : Nat} (hd : DecidesAt ds d n) (he : DecidesAt ds e k)
    (hkey : d.key = e.key) : d = e ∧ n = k := by
  have hdepth : d.depth = e.depth := hd.shallowest.unique (hkey ▸ he.shallowest)
  rcases Nat.lt_trichotomy n k with hlt | rfl | hlt
  · exact absurd hdepth.symm (hd.last k e hlt he.get he.kind hkey.symm)
  · exact ⟨Option.some.inj (hd.get.symm.trans he.get), rfl⟩
  · exact absurd hdepth (he.last n d hlt hd.get hd.kind hkey)

theorem nodup_keys_config (ds : List Directive) : ((config ds).entries.map Prod.fst).Nodup := by
  rw [entries_config, List.map_map, List.nodup_iff_pairwise_ne, List.pairwise_map]
  have hplaces : (lasting (staged ds)).Pairwise fun p q => p.2 ≠ q.2 :=
    (List.pairwise_map.1 (StableSort.nodup_placed ds)).sublist (lasting_sublist _)
  refine hplaces.imp_of_mem ?_
  intro p q hp hq hne hkey
  exact hne ((mem_lasting_staged_iff.1 hp).unique (mem_lasting_staged_iff.1 hq) hkey).2

theorem get?_config_eq_some_iff {value : String} : (config ds).get? key = some value ↔
    ∃ d n, DecidesAt ds d n ∧ d.key = key ∧ d.value = value := by
  rw [Config.get?_eq_some_iff (nodup_keys_config ds), entries_config, List.mem_map]
  constructor
  · intro ⟨⟨d, n⟩, hd, he⟩
    exact ⟨d, n, mem_lasting_staged_iff.1 hd, Prod.mk.inj he⟩
  · intro ⟨d, n, hd, hkey, hvalue⟩
    exact ⟨(d, n), mem_lasting_staged_iff.2 hd, Prod.ext hkey hvalue⟩

theorem DecidesAt.decides (hd : DecidesAt ds d n) : Decides ds d.key d := by
  have hm : d.mentions d.key := Directive.mentions_iff.2 ⟨.inl hd.kind, rfl⟩
  exact ⟨hd.kind, rfl, (isLeast_depths_iff (List.mem_of_getElem? hd.get) hm).1 hd.shallowest⟩

theorem Decides.decidesAt (hd : Decides ds d.key d) (hds : ds = before ++ d :: after)
    (hlast : ∀ e ∈ after, ¬Decides ds d.key e) : DecidesAt ds d before.length := by
  have hget : ds[before.length]? = some d := by simp [hds]
  refine ⟨hget, hd.1, (isLeast_depths_iff (List.mem_of_getElem? hget) hd.mentions).2 hd.2.2, ?_⟩
  intro k e hlt hek hke hkey hdepth
  have he : e ∈ after := by
    obtain ⟨j, rfl⟩ := Nat.exists_eq_add_of_lt hlt
    rw [hds, List.getElem?_append_right (by omega)] at hek
    exact List.mem_of_getElem? (i := j) (by simpa [Nat.add_assoc] using hek)
  exact hlast e he ⟨hke, hkey, fun x hx hm => hdepth ▸ hd.2.2 x hx hm⟩

theorem get?_config (ds : List Directive) (key : String) :
    (config ds).get? key = ((ds.filter (Decides ds key ·)).getLast?).map (·.value) := by
  rcases List.eq_nil_or_concat (ds.filter (Decides ds key ·)) with hnil | ⟨ms, d, hms⟩
  · have hnone : (config ds).get? key = none := by
      rw [Option.eq_none_iff_forall_ne_some]
      intro value hv
      obtain ⟨d, n, hd, rfl, -⟩ := get?_config_eq_some_iff.1 hv
      exact List.filter_eq_nil_iff.1 hnil d (List.mem_of_getElem? hd.get) (decide_eq_true hd.decides)
    rw [hnil, hnone]
    rfl
  · rw [List.concat_eq_append] at hms
    obtain ⟨l, r, hds, -, hr⟩ := List.filter_eq_append_iff.1 hms
    obtain ⟨others, rest, rfl, -, hd, hrest⟩ := List.filter_eq_cons_iff.1 hr
    have hd : Decides ds key d := of_decide_eq_true hd
    obtain rfl : d.key = key := hd.2.1
    have hplace : DecidesAt ds d (l ++ others).length := by
      refine hd.decidesAt (by rw [hds, List.append_assoc]) fun e he hde => ?_
      exact List.filter_eq_nil_iff.1 hrest e he (decide_eq_true hde)
    rw [hms, List.getLast?_concat]
    exact get?_config_eq_some_iff.2 ⟨d, _, hplace, rfl, rfl⟩

theorem get?_config_eq_none_iff :
    (config ds).get? key = none ↔ ∀ d ∈ ds, ¬Decides ds key d := by
  rw [get?_config, Option.map_eq_none_iff, List.getLast?_eq_none_iff, List.filter_eq_nil_iff]
  simp only [decide_eq_true_eq]

theorem get?_config_of_last (hds : ds = before ++ d :: after) (hd : Decides ds key d)
    (hlast : ∀ e ∈ after, e.key = key → e.kind ≠ .inclusion) : (config ds).get? key = some d.value := by
  obtain rfl : d.key = key := hd.2.1
  have hplace := hd.decidesAt hds fun e he hde => hlast e he hde.2.1 hde.1
  exact get?_config_eq_some_iff.2 ⟨d, _, hplace, rfl, rfl⟩

theorem get?_config_filter {q : Directive → Bool}
    (hq : ∀ d ∈ ds, ¬q d → d.mentions key → ∃ e ∈ ds, q e ∧ e.mentions key ∧ e.depth < d.depth) :
    (config (ds.filter q)).get? key = (config ds).get? key := by
  rw [get?_config, get?_config, List.filter_filter]
  congr 2
  apply List.filter_congr
  intro d hd
  rw [Bool.eq_iff_iff, Bool.and_eq_true, decide_eq_true_eq, decide_eq_true_eq]
  constructor
  · rintro ⟨hde, _⟩
    refine ⟨hde.1, hde.2.1, ?_⟩
    intro e he hm
    by_cases hqe : q e
    · exact hde.2.2 e (List.mem_filter.2 ⟨he, hqe⟩) hm
    · obtain ⟨x, hx, hqx, hmx, hlt⟩ := hq e he hqe hm
      exact Int.le_of_lt (Int.lt_of_le_of_lt (hde.2.2 x (List.mem_filter.2 ⟨hx, hqx⟩) hmx) hlt)
  · intro hde
    refine ⟨⟨hde.1, hde.2.1, fun e he hm => hde.2.2 e (List.mem_filter.1 he).1 hm⟩, ?_⟩
    by_contra hqd
    obtain ⟨x, hx, _, hmx, hlt⟩ := hq d hd hqd hde.mentions
    exact absurd (hde.2.2 x hx hmx) (Int.not_le.2 hlt)

/-- What a list of directives amounts to: whether a key is there and what its value is, in which order the
keys stand, and that nothing else has a say in it. -/
theorem shallowest_level_decides (ds : List Directive) :
    (∀ key, (config ds).get? key ≠ none ↔
      ∃ d ∈ ds, d.kind = .inclusion ∧ d.key = key ∧ IsLeast (depths ds key) d.depth) ∧
    (∀ key value, (config ds).get? key = some value ↔
      ∃ d n, DecidesAt ds d n ∧ d.key = key ∧ d.value = value) ∧
    (∀ key, (∀ d ∈ ds, d.kind = .inclusion → d.key ≠ key) → (config ds).get? key = none) ∧
    (∃ places : List (Directive × Nat),
      (config ds).entries = places.map (fun p => (p.1.key, p.1.value)) ∧
      (∀ d n, (d, n) ∈ places ↔ DecidesAt ds d n) ∧
      (places.map (·.1.key)).Nodup ∧
      places.Pairwise fun p q => q.1.depth < p.1.depth ∨ p.1.depth = q.1.depth ∧ p.2 < q.2) ∧
    config (ds.filter (·.kind ≠ .comment)) = config ds := by
  refine ⟨fun key => ?_, fun key value => get?_config_eq_some_iff, fun key hnone => ?_, ?_, ?_⟩
  · rw [← exists_decides_iff, ne_eq, get?_config_eq_none_iff]
    simp
  · exact get?_config_eq_none_iff.2 fun d hd hdec => hnone d hd hdec.1 hdec.2.1
  · have hkeys := nodup_keys_config ds
    rw [entries_config, List.map_map] at hkeys
    exact ⟨_, entries_config ds, fun d n => mem_lasting_staged_iff, hkeys, pairwise_lasting_staged ds⟩
  · have hjudged : (ds.filter (·.kind ≠ .comment)).filter (·.isJudged) = ds.filter (·.isJudged) := by
      rw [List.filter_filter]
      apply List.filter_congr
      intro d _
      cases hk : d.kind <;> simp [Directive.isJudged, hk]
    rw [← config_filter_isJudged, hjudged, config_filter_isJudged]

end Effective

end LayeredConfig
