import Mathlib.Data.List.Nodup
import LayeredConfig.Precedence
import LayeredConfig.Proofs.StableSort

namespace LayeredConfig.Precedence

/-- With its first directive a list is done with all the others of that line. -/
theorem line_induction {motive : List Directive → Prop} (nil : motive [])
    (cons : ∀ d ds, motive (ds.filter fun e => sameLine e d = false) → motive (d :: ds))
    (ds : List Directive) : motive ds := by
  induction hn : ds.length using Nat.strongRecOn generalizing ds with
  | _ n ih =>
      cases ds with
      | nil => exact nil
      | cons d ds =>
          have hle := List.length_filter_le (fun e => decide (sameLine e d = false)) ds
          exact cons d ds (ih _ (by rw [← hn, List.length_cons]; omega) _ rfl)

theorem eraseDupsBy_sublist (ds : List Directive) : (ds.eraseDupsBy sameLine).Sublist ds := by
  induction ds using line_induction with
  | nil => simp
  | cons d ds ih =>
      rw [List.eraseDupsBy_cons]
      exact (ih.trans List.filter_sublist).cons_cons d

theorem nodup_eraseDupsBy (ds : List Directive) :
    ((ds.eraseDupsBy sameLine).map Directive.anchor).Nodup := by
  induction ds using line_induction with
  | nil => simp
  | cons d ds ih =>
      rw [List.eraseDupsBy_cons, List.map_cons, List.nodup_cons]
      refine ⟨?_, ih⟩
      intro hmem
      obtain ⟨e, he, hed⟩ := List.mem_map.1 hmem
      have hf := (List.mem_filter.1 ((eraseDupsBy_sublist _).subset he)).2
      simp [sameLine, hed] at hf

theorem exists_mem_eraseDupsBy {r : Directive → Directive → Prop} {ds : List Directive}
    (hr : ds.Pairwise r) {d : Directive} (hd : d ∈ ds) :
    ∃ e ∈ ds.eraseDupsBy sameLine, e.anchor = d.anchor ∧ (e = d ∨ r e d) := by
  induction ds using line_induction with
  | nil => simp at hd
  | cons a ds ih =>
      rw [List.eraseDupsBy_cons]
      obtain ⟨ha, hr⟩ := List.pairwise_cons.1 hr
      by_cases hs : sameLine d a
      · have he : a.anchor = d.anchor := (of_decide_eq_true hs).symm
        refine ⟨a, List.mem_cons_self, he, ?_⟩
        exact (List.mem_cons.1 hd).imp Eq.symm (ha d)
      · have hda : d ≠ a := by
          rintro rfl
          simp [sameLine] at hs
        have hm : d ∈ ds.filter fun e => sameLine e a = false :=
          List.mem_filter.2 ⟨List.mem_of_ne_of_mem hda hd, by simpa using hs⟩
        obtain ⟨e, he, hea, hed⟩ := ih (hr.sublist List.filter_sublist) hm
        exact ⟨e, List.mem_cons_of_mem a he, hea, hed⟩

theorem mergeSort_pairwise (ds : List Directive) :
    (ds.mergeSort precedes).Pairwise fun a b => precedes a b :=
  @List.pairwise_mergeSort _ precedes (fun _ _ _ => precedes_trans) precedes_total ds

theorem mem_of_mem_order {ds : List Directive} {d : Directive} (hd : d ∈ order ds) : d ∈ ds :=
  List.mem_mergeSort.1 ((eraseDupsBy_sublist _).subset hd)

theorem order_pairwise (ds : List Directive) : (order ds).Pairwise fun a b => precedes a b :=
  (mergeSort_pairwise ds).sublist (eraseDupsBy_sublist _)

theorem nodup_order (ds : List Directive) : ((order ds).map Directive.anchor).Nodup :=
  nodup_eraseDupsBy _

theorem depth_le_of_precedes {a b : Directive} (h : precedes a b) : b.depth ≤ a.depth := by
  simp only [precedes, Bool.or_eq_true, Bool.and_eq_true, decide_eq_true_eq] at h
  omega

theorem exists_mem_order {ds : List Directive} {d : Directive} (hd : d ∈ ds) :
    ∃ e ∈ order ds, e.anchor = d.anchor ∧ d.depth ≤ e.depth := by
  obtain ⟨e, he, ha, hed⟩ := exists_mem_eraseDupsBy (mergeSort_pairwise ds) (List.mem_mergeSort.2 hd)
  refine ⟨e, he, ha, ?_⟩
  rcases hed with rfl | hp
  · exact Int.le_refl _
  · exact depth_le_of_precedes hp

theorem depth_le_of_mem_order {ds : List Directive} {d e : Directive} (he : e ∈ order ds) (hd : d ∈ ds)
    (h : e.anchor = d.anchor) : d.depth ≤ e.depth := by
  obtain ⟨e', he', ha, hle⟩ := exists_mem_order hd
  obtain rfl := List.inj_on_of_nodup_map (nodup_order ds) he' he (ha.trans h.symm)
  exact hle

theorem anchor_eq_of_precedes {a b : Directive} (hab : precedes a b) (hba : precedes b a) :
    a.anchor = b.anchor := by
  simp only [precedes, Bool.or_eq_true, Bool.and_eq_true, decide_eq_true_eq] at hab hba
  have hline : a.line = b.line := by omega
  have hfile : a.file.text = b.file.text := Std.le_antisymm (by grind) (by grind)
  exact Prod.ext (Path.text_inj.1 hfile) hline

theorem eq_of_mem_iff {ds es : List Directive} (hds : ds.Pairwise fun a b => precedes a b)
    (hes : es.Pairwise fun a b => precedes a b) (hdn : (ds.map Directive.anchor).Nodup)
    (hen : (es.map Directive.anchor).Nodup) (hmem : ∀ d, d ∈ es ↔ d ∈ ds) : es = ds := by
  have hperm : es.Perm ds := (List.perm_ext_iff_of_nodup hen.of_map hdn.of_map).2 hmem
  refine hperm.eq_of_pairwise ?_ hes hds
  intro a b ha hb hab hba
  exact List.inj_on_of_nodup_map hdn ((hmem a).1 ha) hb (anchor_eq_of_precedes hab hba)

theorem eq_order {ds es : List Directive} (hsorted : es.Pairwise fun a b => precedes a b)
    (hnodup : (es.map Directive.anchor).Nodup) (hmem : ∀ d, d ∈ es ↔ d ∈ order ds) : es = order ds :=
  eq_of_mem_iff (order_pairwise ds) hsorted (nodup_order ds) hnodup hmem

theorem eq_order_of_perm {ds es : List Directive} (hsorted : es.Pairwise fun a b => precedes a b)
    (hnodup : (es.map Directive.anchor).Nodup) (hperm : es.Perm ds) : es = order ds := by
  refine eq_order hsorted hnodup fun d => ⟨fun hd => ?_, fun hd => hperm.mem_iff.2 (mem_of_mem_order hd)⟩
  obtain ⟨e, he, ha, _⟩ := exists_mem_order (hperm.mem_iff.1 hd)
  obtain rfl := List.inj_on_of_nodup_map hnodup (hperm.mem_iff.2 (mem_of_mem_order he)) hd ha
  exact he

theorem order_of_pairwise {ds : List Directive} (hsorted : ds.Pairwise fun a b => precedes a b)
    (hnodup : (ds.map Directive.anchor).Nodup) : order ds = ds :=
  (eq_order_of_perm hsorted hnodup (.refl ds)).symm

theorem eraseDupsBy_filter {p : Directive → Bool} {ds : List Directive}
    (hp : ∀ d ∈ ds, ∀ e ∈ ds, d.anchor = e.anchor → p d = p e) :
    (ds.filter p).eraseDupsBy sameLine = (ds.eraseDupsBy sameLine).filter p := by
  induction ds using line_induction with
  | nil => simp
  | cons d ds ih =>
      have hsub : ∀ e ∈ ds.filter (fun e => sameLine e d = false), e ∈ d :: ds :=
        fun e he => List.mem_cons_of_mem d (List.mem_of_mem_filter he)
      have ih := ih fun a ha b hb => hp a (hsub a ha) b (hsub b hb)
      rw [List.eraseDupsBy_cons]
      by_cases hd : p d
      · rw [List.filter_cons_of_pos hd, List.filter_cons_of_pos hd, List.eraseDupsBy_cons, ← ih,
          List.filter_filter, List.filter_filter]
        simp only [Bool.and_comm]
      · rw [List.filter_cons_of_neg hd, List.filter_cons_of_neg hd, ← ih, List.filter_filter]
        congr 1
        refine List.filter_congr fun e he => ?_
        by_cases hs : sameLine e d
        · have hpe := hp e (List.mem_cons_of_mem d he) d List.mem_cons_self (of_decide_eq_true hs)
          simp [hpe, hd]
        · simp [hs]

theorem order_filter {p : Directive → Bool} {ds : List Directive}
    (hp : ∀ d ∈ ds, ∀ e ∈ ds, d.anchor = e.anchor → p d = p e) :
    order (ds.filter p) = (order ds).filter p := by
  rw [order, order, ← StableSort.filter_mergeSort (fun a b c => @precedes_trans a b c) precedes_total,
    eraseDupsBy_filter]
  simpa only [List.mem_mergeSort] using hp

end LayeredConfig.Precedence
