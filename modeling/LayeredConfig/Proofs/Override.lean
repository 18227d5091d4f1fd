import Mathlib.Data.List.Induction
import LayeredConfig.Override

namespace LayeredConfig.Override

variable {root : Path} {earlier before since ds : List Directive} {d p : Directive} {i : Issue}

theorem mem_issuesFrom_iff :
    i ∈ issuesFrom root earlier ds ↔ ∃ before d after, ds = before ++ d :: after ∧
      judge root ((before.reverse ++ earlier).filter (·.key = d.key)) d = some i := by
  induction ds generalizing earlier with
  | nil => simp [issuesFrom]
  | cons a ds ih =>
      rw [issuesFrom, List.mem_append, Option.mem_toList, ih]
      constructor
      · rintro (hj | ⟨before, d, after, rfl, hj⟩)
        · exact ⟨[], a, ds, rfl, hj⟩
        · refine ⟨a :: before, d, after, rfl, ?_⟩
          rwa [List.reverse_cons, List.append_assoc]
      · rintro ⟨before, d, after, hds, hj⟩
        cases before with
        | nil =>
            obtain ⟨rfl, rfl⟩ := List.cons.inj hds
            exact .inl hj
        | cons b before =>
            obtain ⟨rfl, rfl⟩ := List.cons.inj hds
            rw [List.reverse_cons, List.append_assoc] at hj
            exact .inr ⟨before, d, after, rfl, hj⟩

/-- What `before` says on the key of `d`, the nearest first. -/
def history (before : List Directive) (d : Directive) : List Directive :=
  before.reverse.filter (·.key = d.key)

theorem mem_issues_iff :
    i ∈ issues root ds ↔ ∃ before d after, ds = before ++ d :: after ∧
      judge root (history before d) d = some i := by
  simp only [issues, mem_issuesFrom_iff, List.append_nil, history]

@[simp]
theorem mem_history {e : Directive} : e ∈ history before d ↔ e ∈ before ∧ e.key = d.key := by
  simp [history]

/-- The inclusion `p` is the last in `before` on the key of `d`, and `since` stands after it. -/
structure Nearest (before : List Directive) (d p : Directive) (since : List Directive) : Prop where
  split : ∃ b, before = b ++ p :: since
  kind : p.kind = .inclusion
  key : p.key = d.key
  since : ∀ e ∈ since, e.key = d.key → e.kind ≠ .inclusion

theorem Nearest.mem (h : Nearest before d p since) : p ∈ before := by
  obtain ⟨b, rfl⟩ := h.split
  exact List.mem_append_right b List.mem_cons_self

theorem Nearest.mem_of_since (h : Nearest before d p since) {e : Directive} (he : e ∈ since) :
    e ∈ before := by
  obtain ⟨b, rfl⟩ := h.split
  exact List.mem_append_right b (List.mem_cons_of_mem p he)

theorem exists_nearest (h : ∃ e ∈ before, e.kind = .inclusion ∧ e.key = d.key) :
    ∃ p since, Nearest before d p since := by
  induction before using List.reverseRecOn with
  | nil => simp at h
  | append_singleton before a ih =>
      by_cases ha : a.kind = .inclusion ∧ a.key = d.key
      · exact ⟨a, [], ⟨before, rfl⟩, ha.1, ha.2, by simp⟩
      · obtain ⟨e, he, hek⟩ := h
        have hea : e ≠ a := by
          rintro rfl
          exact ha hek
        have he : e ∈ before := by simpa [hea] using he
        obtain ⟨p, since, hp⟩ := ih ⟨e, he, hek⟩
        obtain ⟨b, rfl⟩ := hp.split
        refine ⟨p, since ++ [a], ⟨b, by simp⟩, hp.kind, hp.key, ?_⟩
        intro x hx hk
        rcases List.mem_append.1 hx with hx | hx
        · exact hp.since x hx hk
        · obtain rfl := List.mem_singleton.1 hx
          exact fun hi => ha ⟨hi, hk⟩

theorem Nearest.history (h : Nearest before d p since) :
    ∃ b, history before d = Override.history since d ++ p :: b := by
  obtain ⟨b, rfl⟩ := h.split
  exact ⟨Override.history b d, by simp [Override.history, h.key]⟩

theorem Nearest.find? (h : Nearest before d p since) :
    (Override.history before d).find? (·.kind = .inclusion) = some p := by
  obtain ⟨b, hb⟩ := h.history
  rw [hb, List.find?_eq_some_iff_append]
  refine ⟨by simpa using h.kind, _, b, rfl, ?_⟩
  intro e he
  obtain ⟨he, hk⟩ := mem_history.1 he
  simpa using h.since e he hk

theorem Nearest.takeWhile (h : Nearest before d p since) :
    (Override.history before d).takeWhile (·.kind ≠ .inclusion) = Override.history since d := by
  obtain ⟨b, hb⟩ := h.history
  rw [hb, List.takeWhile_append_of_pos, List.takeWhile_cons_of_neg, List.append_nil]
  · simp [h.kind]
  · intro e he
    obtain ⟨he, hk⟩ := mem_history.1 he
    simpa using h.since e he hk

theorem any_history : (history before d).any (excludes d) ↔
    ∃ e ∈ before, e.key = d.key ∧ excludes d e := by
  simp only [List.any_eq_true, mem_history, and_assoc]

theorem Nearest.judge (h : Nearest before d p since) (hd : d.kind = .inclusion) :
    judge root (Override.history before d) d =
      if ¬∃ e ∈ before, e.key = d.key ∧ excludes d e then some (redefined root p d)
      else if p.value = d.value ∧ ∃ e ∈ since, e.key = d.key ∧ excludes d e then
        some (unnecessary root d)
      else none := by
  rw [Override.judge, if_neg (not_not.2 hd), h.find?]
  simp only [h.takeWhile, any_history]

theorem judge_history_iff :
    judge root (history before d) d = some i ↔ d.kind = .inclusion ∧ ∃ p since, Nearest before d p since ∧
      ((¬∃ e ∈ before, e.key = d.key ∧ excludes d e) ∧ i = redefined root p d ∨
        p.value = d.value ∧ (∃ e ∈ since, e.key = d.key ∧ excludes d e) ∧ i = unnecessary root d) := by
  constructor
  · intro hj
    have hd : d.kind = .inclusion := by
      by_contra hd
      simp [judge_of_kind root hd] at hj
    obtain ⟨p, hp⟩ : ∃ p, (history before d).find? (·.kind = .inclusion) = some p := by
      rw [← Option.isSome_iff_exists]
      by_contra hn
      simp [judge, hd, Option.not_isSome_iff_eq_none.1 hn] at hj
    have hk := List.find?_some hp
    have hm := mem_history.1 (List.mem_of_find?_eq_some hp)
    obtain ⟨p, since, hn⟩ := exists_nearest ⟨p, hm.1, by simpa using hk, hm.2⟩
    refine ⟨hd, p, since, hn, ?_⟩
    rw [hn.judge hd] at hj
    split at hj
    · exact .inl ⟨by assumption, (Option.some.inj hj).symm⟩
    · split at hj <;> cases hj
      rename_i hu
      exact .inr ⟨hu.1, hu.2, rfl⟩
  · rintro ⟨hd, p, since, hn, hi⟩
    rw [hn.judge hd]
    rcases hi with ⟨he, rfl⟩ | ⟨hv, ⟨e, he, hx⟩, rfl⟩
    · rw [if_pos he]
    · rw [if_neg (not_not.2 ⟨e, hn.mem_of_since he, hx⟩), if_pos ⟨hv, e, he, hx⟩]

theorem eq_ofDirective_of_judge (hj : judge root earlier d = some i) :
    ∃ kind message, i = .ofDirective d kind message := by
  unfold judge at hj
  split at hj
  · cases hj
  · split at hj
    · cases hj
    · split at hj
      · cases hj
        exact ⟨_, _, rfl⟩
      · dsimp only at hj
        split at hj <;> cases hj
        exact ⟨_, _, rfl⟩

theorem judge_anchor (hj : judge root earlier d = some i) : i.anchor = d.anchor := by
  obtain ⟨_, _, rfl⟩ := eq_ofDirective_of_judge hj
  rfl

theorem judge_key (hj : judge root earlier d = some i) : i.key = d.key := by
  obtain ⟨_, _, rfl⟩ := eq_ofDirective_of_judge hj
  rfl

theorem exists_of_mem (hi : i ∈ issues root ds) :
    ∃ d ∈ ds, d.kind = .inclusion ∧ i.anchor = d.anchor ∧ i.key = d.key := by
  obtain ⟨before, d, after, rfl, hj⟩ := mem_issues_iff.1 hi
  obtain ⟨hd, _⟩ := judge_history_iff.1 hj
  exact ⟨d, List.mem_append_right before List.mem_cons_self, hd, judge_anchor hj, judge_key hj⟩

theorem issues_eq_nil (hkeys : (ds.map (·.key)).Nodup) : issues root ds = [] := by
  refine List.eq_nil_iff_forall_not_mem.2 fun i hi => ?_
  obtain ⟨before, d, after, rfl, hj⟩ := mem_issues_iff.1 hi
  obtain ⟨_, p, since, hn, _⟩ := judge_history_iff.1 hj
  rw [List.map_append, List.map_cons, List.nodup_append] at hkeys
  exact hkeys.2.2 p.key (List.mem_map_of_mem hn.mem) d.key List.mem_cons_self hn.key

theorem anchors_sublist (ds : List Directive) :
    ((issues root ds).map Issue.anchor).Sublist (ds.map Directive.anchor) := by
  have hfrom : ∀ earlier, ((issuesFrom root earlier ds).map Issue.anchor).Sublist
      (ds.map Directive.anchor) := by
    induction ds with
    | nil => simp [issuesFrom]
    | cons d ds ih =>
        intro earlier
        rw [issuesFrom, List.map_append, List.map_cons]
        cases hj : judge root (earlier.filter (·.key = d.key)) d with
        | none => exact (ih (d :: earlier)).cons d.anchor
        | some i =>
            rw [Option.toList_some, List.map_singleton, judge_anchor hj]
            exact (ih (d :: earlier)).cons_cons d.anchor
  exact hfrom []

theorem takeWhile_filter_isJudged (ds : List Directive) :
    (ds.filter (·.isJudged)).takeWhile (·.kind ≠ .inclusion) =
      (ds.takeWhile (·.kind ≠ .inclusion)).filter (·.isJudged) := by
  induction ds with
  | nil => rfl
  | cons d ds ih =>
      by_cases hd : d.kind = .inclusion
      · simp [Directive.isJudged, hd]
      · by_cases hj : d.isJudged <;> simp_all

theorem judge_filter_isJudged (root : Path) (earlier : List Directive) (d : Directive) :
    judge root (earlier.filter (·.isJudged)) d = judge root earlier d := by
  have hfind : (earlier.filter (·.isJudged)).find? (·.kind = .inclusion) =
      earlier.find? (·.kind = .inclusion) := by
    rw [List.find?_filter]
    congr 1
    funext e
    by_cases he : e.kind = .inclusion <;> simp [Directive.isJudged, he]
  have hany : ∀ es : List Directive, (es.filter (·.isJudged)).any (excludes d) = es.any (excludes d) := by
    intro es
    rw [List.any_filter]
    congr 1
    funext e
    by_cases he : e.kind = .exclusion <;> simp [Directive.isJudged, excludes, he]
  simp only [judge, hfind, hany, takeWhile_filter_isJudged]

theorem issuesFrom_filter_isJudged (root : Path) (earlier ds : List Directive) :
    issuesFrom root (earlier.filter (·.isJudged)) (ds.filter (·.isJudged)) = issuesFrom root earlier ds := by
  induction ds generalizing earlier with
  | nil => rfl
  | cons d ds ih =>
      by_cases hd : d.isJudged
      · have hkey : (earlier.filter (·.isJudged)).filter (·.key = d.key) =
            (earlier.filter (·.key = d.key)).filter (·.isJudged) := by
          simp only [List.filter_filter, Bool.and_comm]
        rw [List.filter_cons_of_pos hd, issuesFrom, issuesFrom, hkey, judge_filter_isJudged, ← ih (d :: earlier),
          List.filter_cons_of_pos hd]
      · have hkind : d.kind ≠ .inclusion := fun hk => hd (by simp [Directive.isJudged, hk])
        rw [List.filter_cons_of_neg hd, issuesFrom, judge_of_kind root hkind, ← ih (d :: earlier),
          List.filter_cons_of_neg hd]
        rfl

theorem issues_filter_isJudged (root : Path) (ds : List Directive) :
    issues root (ds.filter (·.isJudged)) = issues root ds :=
  issuesFrom_filter_isJudged root [] ds

theorem mem_redefined_iff :
    i ∈ issues root ds ∧ i.kind = .redefinedWithoutExclusion ↔ ∃ before d after p since,
      ds = before ++ d :: after ∧ d.kind = .inclusion ∧ Nearest before d p since ∧
        (¬∃ e ∈ before, e.key = d.key ∧ excludes d e) ∧ i = redefined root p d := by
  rw [mem_issues_iff]
  constructor
  · rintro ⟨⟨before, d, after, hds, hj⟩, hk⟩
    obtain ⟨hd, p, since, hn, ⟨he, rfl⟩ | ⟨_, _, rfl⟩⟩ := judge_history_iff.1 hj
    · exact ⟨before, d, after, p, since, hds, hd, hn, he, rfl⟩
    · cases hk
  · rintro ⟨before, d, after, p, since, hds, hd, hn, he, rfl⟩
    exact ⟨⟨before, d, after, hds, judge_history_iff.2 ⟨hd, p, since, hn, .inl ⟨he, rfl⟩⟩⟩, rfl⟩

theorem mem_unnecessary_iff :
    i ∈ issues root ds ∧ i.kind = .unnecessaryRedefinition ↔ ∃ before d after p since,
      ds = before ++ d :: after ∧ d.kind = .inclusion ∧ Nearest before d p since ∧
        p.value = d.value ∧ (∃ e ∈ since, e.key = d.key ∧ excludes d e) ∧ i = unnecessary root d := by
  rw [mem_issues_iff]
  constructor
  · rintro ⟨⟨before, d, after, hds, hj⟩, hk⟩
    obtain ⟨hd, p, since, hn, ⟨_, rfl⟩ | ⟨hv, he, rfl⟩⟩ := judge_history_iff.1 hj
    · cases hk
    · exact ⟨before, d, after, p, since, hds, hd, hn, hv, he, rfl⟩
  · rintro ⟨before, d, after, p, since, hds, hd, hn, hv, he, rfl⟩
    exact ⟨⟨before, d, after, hds, judge_history_iff.2 ⟨hd, p, since, hn, .inr ⟨hv, he, rfl⟩⟩⟩, rfl⟩

end LayeredConfig.Override
