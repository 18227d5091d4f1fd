import Mathlib.Data.List.Nodup
import LayeredConfig.Duplicate

namespace LayeredConfig.Duplicate

variable {root : Path} {found ds : List Directive} {i : Issue}

theorem issues_filter_isJudged (root : Path) (ds : List Directive) :
    issues root (ds.filter (·.isJudged)) = issues root ds := by
  rw [issues, List.filter_filter]
  simp only [Bool.and_self]
  rfl

theorem group_kind (h : i ∈ group root found) : i.kind = .duplicateLine := by
  unfold group at h
  split at h
  · simp at h
  · obtain ⟨n, hn, rfl⟩ := List.mem_mapIdx.1 h
    rfl

theorem kind_of_mem (h : i ∈ issues root ds) : i.kind = .duplicateLine := by
  obtain ⟨text, _, hi⟩ := List.mem_flatMap.1 h
  exact group_kind hi

theorem exists_of_mem (h : i ∈ issues root ds) :
    ∃ d ∈ ds, d.isJudged ∧ i.anchor = d.anchor ∧ i.key = d.key := by
  obtain ⟨text, _, hi⟩ := List.mem_flatMap.1 h
  unfold group at hi
  split at hi
  · cases hi
  · obtain ⟨n, hn, rfl⟩ := List.mem_mapIdx.1 hi
    obtain ⟨hd, _⟩ := List.mem_filter.1 (List.getElem_mem hn)
    obtain ⟨hd, hj⟩ := List.mem_filter.1 hd
    exact ⟨_, hd, hj, rfl, rfl⟩

theorem group_anchors (found : List Directive) : (group root found).map Issue.anchor =
    if found.length < 2 then [] else found.map Directive.anchor := by
  unfold group
  split
  · rfl
  · apply List.ext_getElem
    · simp
    · intro n hn hn'
      simp [issueAt]

theorem mem_of_mem_group_anchors {a : Path × Int} (h : a ∈ (group root found).map Issue.anchor) :
    ∃ d ∈ found, d.anchor = a := by
  rw [group_anchors] at h
  split at h
  · cases h
  · exact List.mem_map.1 h

theorem nodup_eraseDups (texts : List String) : texts.eraseDups.Nodup := by
  induction hn : texts.length using Nat.strongRecOn generalizing texts with
  | _ n ih =>
      cases texts with
      | nil => simp
      | cons text texts =>
          have hle := List.length_filter_le (fun t => !t == text) texts
          rw [List.length_cons] at hn
          rw [List.eraseDups_cons, List.nodup_cons]
          exact ⟨by simp [List.mem_eraseDups], ih _ (by omega) _ rfl⟩

def others (ds : List Directive) (d : Directive) : List Directive :=
  ds.filter fun e => e ≠ d ∧ e.isJudged ∧ e.text = d.text

theorem mem_others_iff {d e : Directive} :
    e ∈ others ds d ↔ e ∈ ds ∧ e ≠ d ∧ e.isJudged ∧ e.text = d.text := by
  simp [others]

theorem eraseIdx_eq_filter (hfound : found.Nodup) {n : Nat} (hn : n < found.length) :
    found.eraseIdx n = found.filter (· ≠ found[n]) := by
  rw [← hfound.erase_getElem n hn, hfound.erase_eq_filter]
  refine List.filter_congr fun e _ => ?_
  rw [Bool.eq_iff_iff, bne_iff_ne, decide_eq_true_iff]

/-- Lines are told apart by what they are, not by where they stand in the list. -/
theorem mem_group_iff (hfound : found.Nodup) : i ∈ group root found ↔
    ∃ d ∈ found, found.filter (· ≠ d) ≠ [] ∧ i = issueAt root (found.filter (· ≠ d)) d := by
  have hlength : ∀ n (hn : n < found.length),
      found.filter (· ≠ found[n]) ≠ [] ↔ ¬found.length < 2 := by
    intro n hn
    rw [← eraseIdx_eq_filter hfound hn, ← List.length_pos_iff_ne_nil, List.length_eraseIdx_of_lt hn]
    omega
  unfold group
  constructor
  · intro hi
    split at hi
    · cases hi
    · obtain ⟨n, hn, rfl⟩ := List.mem_mapIdx.1 hi
      refine ⟨found[n], List.getElem_mem hn, (hlength n hn).2 (by assumption), ?_⟩
      rw [eraseIdx_eq_filter hfound hn]
  · rintro ⟨d, hd, hne, rfl⟩
    obtain ⟨n, hn, rfl⟩ := List.getElem_of_mem hd
    rw [if_neg ((hlength n hn).1 hne), List.mem_mapIdx]
    exact ⟨n, hn, by rw [eraseIdx_eq_filter hfound hn]⟩

theorem mem_issues_iff (hds : ds.Nodup) : i ∈ issues root ds ↔
    ∃ d ∈ ds, d.isJudged ∧ others ds d ≠ [] ∧ i = issueAt root (others ds d) d := by
  have hothers : ∀ d : Directive,
      ((ds.filter (·.isJudged)).filter (·.text = d.text)).filter (· ≠ d) = others ds d := by
    intro d
    rw [List.filter_filter, List.filter_filter, others]
    refine List.filter_congr fun e _ => ?_
    rw [Bool.eq_iff_iff]
    simp only [Bool.and_eq_true, decide_eq_true_eq]
    tauto
  have hgroup : ∀ text, ((ds.filter (·.isJudged)).filter (·.text = text)).Nodup :=
    fun text => (hds.filter _).filter _
  constructor
  · intro hi
    obtain ⟨text, _, hi⟩ := List.mem_flatMap.1 hi
    obtain ⟨d, hd, hne, rfl⟩ := (mem_group_iff (hgroup text)).1 hi
    obtain ⟨hjudged, htext⟩ := List.mem_filter.1 hd
    obtain ⟨hmem, hj⟩ := List.mem_filter.1 hjudged
    obtain rfl := of_decide_eq_true htext
    rw [hothers] at hne ⊢
    exact ⟨d, hmem, hj, hne, rfl⟩
  · rintro ⟨d, hd, hj, hne, rfl⟩
    have hd' := List.mem_filter.2 ⟨hd, hj⟩
    refine List.mem_flatMap.2 ⟨d.text, List.mem_eraseDups.2 (List.mem_map_of_mem hd'), ?_⟩
    refine (mem_group_iff (hgroup d.text)).2 ⟨d, List.mem_filter.2 ⟨hd', by simp⟩, ?_⟩
    rw [hothers]
    exact ⟨hne, rfl⟩

theorem issues_eq_nil (htexts : (ds.map (·.text)).Nodup) : issues root ds = [] := by
  refine List.eq_nil_iff_forall_not_mem.2 fun i hi => ?_
  obtain ⟨d, hd, _, hne, _⟩ := (mem_issues_iff htexts.of_map).1 hi
  obtain ⟨e, he⟩ := List.exists_mem_of_ne_nil _ hne
  obtain ⟨he, hed, _, htext⟩ := mem_others_iff.1 he
  exact hed (List.inj_on_of_nodup_map htexts he hd htext)

theorem nodup_anchors (hds : (ds.map Directive.anchor).Nodup) :
    ((issues root ds).map Issue.anchor).Nodup := by
  have hjudged : ((ds.filter (·.isJudged)).map Directive.anchor).Nodup :=
    hds.sublist (List.filter_sublist.map _)
  simp only [issues]
  rw [List.map_flatMap, List.nodup_flatMap]
  constructor
  · intro text _
    rw [group_anchors]
    split
    · simp
    · exact hjudged.sublist (List.filter_sublist.map _)
  · refine (nodup_eraseDups _).imp ?_
    intro text text' hne
    rw [Function.onFun_apply, List.disjoint_left]
    intro a ha ha'
    obtain ⟨d, hd, rfl⟩ := mem_of_mem_group_anchors ha
    obtain ⟨d', hd', hdd⟩ := mem_of_mem_group_anchors ha'
    obtain ⟨hd, ht⟩ := List.mem_filter.1 hd
    obtain ⟨hd', ht'⟩ := List.mem_filter.1 hd'
    obtain rfl := List.inj_on_of_nodup_map hjudged hd' hd hdd
    exact hne (by rw [← of_decide_eq_true ht, ← of_decide_eq_true ht'])

end LayeredConfig.Duplicate
