import Mathlib.Data.List.Basic

namespace LayeredConfig.StableSort

variable {α : Type} {le : α → α → Bool}

/-- The sorted list with the places that its elements had before. -/
def placed (le : α → α → Bool) (as : List α) : List (α × Nat) := as.zipIdx.mergeSort (List.zipIdxLE le)

theorem map_fst_placed (le : α → α → Bool) (as : List α) : (placed le as).map Prod.fst = as.mergeSort le :=
  List.mergeSort_zipIdx

theorem mem_placed_iff {as : List α} {p : α × Nat} : p ∈ placed le as ↔ as[p.2]? = some p.1 :=
  List.mem_mergeSort.trans List.mem_zipIdx_iff_getElem?

theorem nodup_placed (as : List α) : ((placed le as).map Prod.snd).Nodup := by
  have hperm : (placed le as).Perm as.zipIdx := List.mergeSort_perm _ _
  rw [(hperm.map Prod.snd).nodup_iff, List.zipIdx_map_snd]
  exact List.nodup_range'

variable (trans : ∀ a b c, le a b → le b c → le a c) (total : ∀ a b, le a b || le b a)

include trans total

theorem pairwise_placed (as : List α) : (placed le as).Pairwise fun p q =>
    le p.1 q.1 ∧ (le q.1 p.1 → p.2 < q.2) := by
  have hsorted : (placed le as).Pairwise fun p q => List.zipIdxLE le p q :=
    List.pairwise_mergeSort (List.zipIdxLE_trans trans) (List.zipIdxLE_total total) as.zipIdx
  have hplaces : (placed le as).Pairwise fun p q => p.2 ≠ q.2 := List.pairwise_map.1 (nodup_placed as)
  refine (hsorted.and hplaces).imp ?_
  intro p q ⟨hle, hne⟩
  simp only [List.zipIdxLE] at hle
  split at hle
  · refine ⟨by assumption, fun hqp => ?_⟩
    rw [if_pos hqp, decide_eq_true_eq] at hle
    omega
  · cases hle

theorem exists_mergeSort_cons (a : α) (as : List α) :
    ∃ l r, as.mergeSort le = l ++ r ∧ (a :: as).mergeSort le = l ++ a :: r ∧ (∀ b ∈ l, ¬le a b) ∧
      ∀ b ∈ r, le a b := by
  obtain ⟨l, r, hcons, has, hl⟩ := List.mergeSort_cons trans total a as
  refine ⟨l, r, has, hcons, fun b hb => by simpa using hl b hb, ?_⟩
  have hsorted : ((a :: as).mergeSort le).Pairwise fun a b => le a b := List.pairwise_mergeSort trans total _
  rw [hcons, List.pairwise_append, List.pairwise_cons] at hsorted
  exact hsorted.2.1.1

theorem mergeSort_cons {a : α} {as l r : List α} (has : as.mergeSort le = l ++ r)
    (hl : ∀ b ∈ l, ¬le a b) (hr : ∀ b ∈ r, le a b) : (a :: as).mergeSort le = l ++ a :: r := by
  have hleft : ∀ {l r : List α}, (∀ b ∈ l, ¬le a b) → (∀ b ∈ r, le a b) →
      (l ++ r).filter (fun b => ¬le a b) = l := by
    intro l r hl hr
    rw [List.filter_append, List.filter_eq_self.2 (by simpa using hl),
      List.filter_eq_nil_iff.2 (by simpa using hr), List.append_nil]
  obtain ⟨l', r', has', hcons, hl', hr'⟩ := exists_mergeSort_cons trans total a as
  obtain rfl : l = l' := by rw [← hleft hl hr, ← has, has', hleft hl' hr']
  obtain rfl : r = r' := List.append_cancel_left (has.symm.trans has')
  exact hcons

theorem filter_mergeSort (p : α → Bool) (as : List α) :
    (as.mergeSort le).filter p = (as.filter p).mergeSort le := by
  induction as with
  | nil => simp
  | cons a as ih =>
      obtain ⟨l, r, has, hcons, hl, hr⟩ := exists_mergeSort_cons trans total a as
      rw [has, List.filter_append] at ih
      by_cases ha : p a
      · rw [hcons, List.filter_append, List.filter_cons_of_pos ha, List.filter_cons_of_pos ha]
        refine (mergeSort_cons trans total ih.symm ?_ ?_).symm
        · exact fun b hb => hl b (List.mem_of_mem_filter hb)
        · exact fun b hb => hr b (List.mem_of_mem_filter hb)
      · rw [hcons, List.filter_append, List.filter_cons_of_neg ha, List.filter_cons_of_neg ha, ih]

end LayeredConfig.StableSort
