import LayeredConfig.Diagnostic

namespace LayeredConfig

namespace Diagnostic

variable {policy : CommentPolicy} {document : Path} {text raw : String} {is : List Issue} {i : Issue}
  {d : Diagnostic} {n : Nat}

theorem combine_eq_some (h : combine n raw is = some d) : d.line = n ∧ d.issues = is ∧ is ≠ [] := by
  cases is with
  | nil => cases h
  | cons i is =>
      cases h
      exact ⟨rfl, rfl, List.cons_ne_nil i is⟩

theorem exists_combine (h : is ≠ []) : ∃ d, combine n raw is = some d := by
  cases is with
  | nil => exact absurd rfl h
  | cons i is => exact ⟨_, rfl⟩

theorem ofLine_eq_some (h : ofLine policy is n raw = some d) :
    d.line = n ∧ d.issues = is.filter (·.key = Line.key (Text.trim raw)) ∧ d.issues ≠ [] := by
  unfold ofLine at h
  dsimp only at h
  split at h
  · cases h
  · obtain ⟨hline, hissues, hne⟩ := combine_eq_some h
    exact ⟨hline, hissues, hissues ▸ hne⟩

theorem exists_ofLine (hraw : Text.trim raw ≠ "")
    (hkind : LineKind.ofText policy (Text.trim raw) ≠ .comment) (hi : i ∈ is)
    (hkey : i.key = Line.key (Text.trim raw)) : ∃ d, ofLine policy is n raw = some d ∧ i ∈ d.issues := by
  have hmem : i ∈ is.filter (·.key = Line.key (Text.trim raw)) :=
    List.mem_filter.2 ⟨hi, decide_eq_true hkey⟩
  obtain ⟨d, hd⟩ : ∃ d, combine n raw (is.filter (·.key = Line.key (Text.trim raw))) = some d :=
    exists_combine (List.ne_nil_of_mem hmem)
  refine ⟨d, ?_, (combine_eq_some hd).2.1 ▸ hmem⟩
  rw [ofLine, if_neg (not_or.2 ⟨hraw, hkind⟩)]
  exact hd

theorem mem_ofDocument_iff : d ∈ ofDocument policy document text is ↔
    ∃ raw n, (raw, n) ∈ (Text.lines text).zipIdx 1 ∧
      ofLine policy (is.filter (·.file = document)) n raw = some d := by
  simp only [ofDocument, List.mem_filterMap, Prod.exists]

theorem mem_of_mem_ofDocument (hd : d ∈ ofDocument policy document text is) (hi : i ∈ d.issues) :
    i ∈ is ∧ i.file = document := by
  obtain ⟨raw, n, _, hline⟩ := mem_ofDocument_iff.1 hd
  rw [(ofLine_eq_some hline).2.1] at hi
  obtain ⟨hi, hf⟩ := List.mem_filter.1 (List.mem_filter.1 hi).1
  exact ⟨hi, of_decide_eq_true hf⟩

theorem issues_ne_nil (hd : d ∈ ofDocument policy document text is) : d.issues ≠ [] := by
  obtain ⟨raw, n, _, hline⟩ := mem_ofDocument_iff.1 hd
  exact (ofLine_eq_some hline).2.2

theorem pairwise_lines : ((ofDocument policy document text is).map Diagnostic.line).Pairwise (· < ·) := by
  rw [List.pairwise_map, ofDocument, List.pairwise_filterMap]
  refine (Text.zipIdx_pairwise (Text.lines text) 1).imp ?_
  intro ⟨raw, n⟩ ⟨raw', n'⟩ hlt d hd d' hd'
  rw [(ofLine_eq_some hd).1, (ofLine_eq_some hd').1]
  exact hlt

theorem nodup_lines : ((ofDocument policy document text is).map Diagnostic.line).Nodup :=
  List.nodup_iff_pairwise_ne.2 (pairwise_lines.imp Nat.ne_of_lt)

end Diagnostic

/-- The diagnostics `ds` show of the issues `is` those of `document`, each at its own line at least. -/
structure Shows (document : Path) (is : List Issue) (ds : List Diagnostic) : Prop where
  shown : ∀ i ∈ is, i.file = document → ∃ d ∈ ds, (d.line : Int) = i.line ∧ i ∈ d.issues
  once : (ds.map Diagnostic.line).Nodup
  empty : ds = [] ↔ ∀ i ∈ is, i.file ≠ document
  only : ∀ d ∈ ds, ∀ i ∈ d.issues, i ∈ is ∧ i.file = document

theorem Diagnostic.shows_ofDocument {policy : CommentPolicy} {document : Path} {text : String}
    {is : List Issue} (hlines : ∀ i ∈ is, i.file = document → ∃ raw n,
      (raw, n) ∈ (Text.lines text).zipIdx 1 ∧ i.line = (n : Int) ∧ Text.trim raw ≠ "" ∧
        LineKind.ofText policy (Text.trim raw) ≠ .comment ∧ i.key = Line.key (Text.trim raw)) :
    Shows document is (ofDocument policy document text is) := by
  have hshown : ∀ i ∈ is, i.file = document →
      ∃ d ∈ ofDocument policy document text is, (d.line : Int) = i.line ∧ i ∈ d.issues := by
    intro i hi hf
    obtain ⟨raw, n, hl, hn, hraw, hkind, hkey⟩ := hlines i hi hf
    have hown : i ∈ is.filter (·.file = document) := List.mem_filter.2 ⟨hi, decide_eq_true hf⟩
    obtain ⟨d, hd, hid⟩ := exists_ofLine (n := n) hraw hkind hown hkey
    refine ⟨d, mem_ofDocument_iff.2 ⟨raw, n, hl, hd⟩, ?_, hid⟩
    rw [hn, (ofLine_eq_some hd).1]
  refine ⟨hshown, nodup_lines, ?_, fun d hd i hi => mem_of_mem_ofDocument hd hi⟩
  constructor
  · intro hnil i hi hf
    obtain ⟨d, hd, _⟩ := hshown i hi hf
    rw [hnil] at hd
    cases hd
  · intro hnone
    rw [List.eq_nil_iff_forall_not_mem]
    intro d hd
    obtain ⟨i, hi⟩ := List.exists_mem_of_ne_nil _ (issues_ne_nil hd)
    obtain ⟨hi, hf⟩ := mem_of_mem_ofDocument hd hi
    exact hnone i hi hf

end LayeredConfig
