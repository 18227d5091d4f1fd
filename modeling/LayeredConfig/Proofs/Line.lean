import Mathlib.Data.List.TakeWhile
import LayeredConfig.Directive
import LayeredConfig.Text.Blank

namespace LayeredConfig.Line

variable {cs rest : List Char} {text : String} {policy : CommentPolicy} {file : Path} {line depth : Int}

def markers : List String := ["", "#", "-"]

/-- The parts of a line joined: one marker or none, the key, and the value behind a `=` if there is one. -/
def Reassembles (text key value : String) : Prop :=
  ∃ marker ∈ markers, if '=' ∈ text.toList then text = marker ++ key ++ "=" ++ value
    else text = marker ++ key ∧ value = ""

instance (text key value : String) : Decidable (Reassembles text key value) :=
  inferInstanceAs (Decidable (∃ marker ∈ markers, ite ..))

/-- Where the key should begin there is a `=`. -/
def LacksKey (text : String) : Prop := ∃ marker ∈ markers, ∃ rest, text = marker ++ "=" ++ rest

theorem takeWhile_append_valueChars (h : '=' ∈ cs) : cs.takeWhile (· ≠ '=') ++ '=' :: valueChars cs = cs := by
  induction cs with
  | nil => cases h
  | cons c cs ih =>
      by_cases hc : c = '='
      · subst hc
        rfl
      · have hmem : '=' ∈ cs := List.mem_of_ne_of_mem (Ne.symm hc) h
        rw [List.takeWhile_cons_of_pos (by simpa using hc), List.cons_append, valueChars,
          List.dropWhile_cons_of_pos (by simpa using hc), ← valueChars, ih hmem]

theorem valueChars_append (h : '=' ∉ cs) : valueChars (cs ++ rest) = valueChars rest := by
  rw [valueChars, List.dropWhile_append_of_pos, valueChars]
  intro c hc
  exact decide_eq_true fun he => h (he ▸ hc)

theorem equals_notMem_takeWhile (cs : List Char) : '=' ∉ cs.takeWhile (· ≠ '=') := by
  intro h
  simpa using List.mem_takeWhile_imp h

theorem equals_notMem_marker {marker : String} (h : marker ∈ markers) : '=' ∉ marker.toList := by
  simp only [markers, List.mem_cons, List.not_mem_nil, or_false] at h
  rcases h with rfl | rfl | rfl <;> decide

theorem exists_marker (h : cs.head? ≠ some '!') : ∃ marker ∈ markers, cs = marker.toList ++ dropMarker cs := by
  have hnone : "" ∈ markers := by decide
  rcases cs with _ | ⟨c, _ | ⟨d, cs⟩⟩
  · exact ⟨"", hnone, rfl⟩
  · exact ⟨"", hnone, rfl⟩
  · by_cases hc : isMarker c
    · have hmarker : c = '#' ∨ c = '-' := by
        simp only [isMarker, Bool.or_eq_true, decide_eq_true_eq] at hc
        rcases hc with (hc | rfl) | hc
        · exact .inl hc
        · exact absurd rfl h
        · exact .inr hc
      rw [dropMarker, if_pos hc]
      rcases hmarker with rfl | rfl
      · exact ⟨"#", by decide, rfl⟩
      · exact ⟨"-", by decide, rfl⟩
    · rw [dropMarker, if_neg hc]
      exact ⟨"", hnone, rfl⟩

theorem dropMarker_ne_nil (h : cs ≠ []) : dropMarker cs ≠ [] := by
  rcases cs with _ | ⟨c, _ | ⟨d, cs⟩⟩
  · exact absurd rfl h
  · exact h
  · rw [dropMarker]
    split <;> exact List.cons_ne_nil _ _

theorem dropMarker_of_equals {marker : String} (h : marker ∈ markers) (rest : List Char) :
    dropMarker (marker.toList ++ '=' :: rest) = '=' :: rest := by
  simp only [markers, List.mem_cons, List.not_mem_nil, or_false] at h
  rcases h with rfl | rfl | rfl
  · cases rest <;> rfl
  · rfl
  · rfl

theorem keyChars_of_notMem {c : Char} (hline : '\n' ∉ cs) (h : dropMarker cs = c :: rest) :
    keyChars cs = c :: rest.takeWhile (· ≠ '=') := by
  have hlast : Text.dropFinalNewline cs = cs := if_neg fun he => hline (List.mem_of_getLast? he)
  rw [keyChars]
  simp only [hlast, if_neg hline, h]

theorem lacksKey_iff (h : text.toList.head? ≠ some '!') :
    LacksKey text ↔ (dropMarker text.toList).head? = some '=' := by
  constructor
  · intro ⟨marker, hmarker, rest, htext⟩
    rw [htext, String.toList_append, String.toList_append, List.append_assoc]
    change (dropMarker (marker.toList ++ '=' :: rest.toList)).head? = _
    rw [dropMarker_of_equals hmarker]
    rfl
  · intro hhead
    obtain ⟨marker, hmarker, htext⟩ := exists_marker h
    obtain ⟨rest, hrest⟩ := List.head?_eq_some_iff.1 hhead
    refine ⟨marker, hmarker, String.ofList rest, String.toList_injective ?_⟩
    rw [htext, hrest]
    simp

theorem keyChars_eq_takeWhile (hline : '\n' ∉ text.toList) (himport : text.toList.head? ≠ some '!')
    (hkey : ¬LacksKey text) : keyChars text.toList = (dropMarker text.toList).takeWhile (· ≠ '=') := by
  cases hdrop : dropMarker text.toList with
  | nil =>
      have hnil : text.toList = [] := by
        by_contra hne
        exact dropMarker_ne_nil hne hdrop
      rw [hnil]
      rfl
  | cons c rest =>
      have hc : c ≠ '=' := by
        intro he
        apply hkey
        rw [lacksKey_iff himport, hdrop, he]
        rfl
      rw [keyChars_of_notMem hline hdrop, List.takeWhile_cons_of_pos (by simpa using hc)]

theorem reassembles_of_key (hline : '\n' ∉ text.toList) (himport : text.toList.head? ≠ some '!')
    (hkey : ¬LacksKey text) : Reassembles text (key text) (value text) ∧ '=' ∉ (key text).toList := by
  have hchars := keyChars_eq_takeWhile hline himport hkey
  obtain ⟨marker, hmarker, htext⟩ := exists_marker himport
  have hnone := equals_notMem_marker hmarker
  have hvalue : valueChars text.toList = valueChars (dropMarker text.toList) :=
    (congrArg valueChars htext).trans (valueChars_append hnone)
  constructor
  · refine ⟨marker, hmarker, ?_⟩
    split
    · have hmem : '=' ∈ dropMarker text.toList := by
        have hmem : '=' ∈ marker.toList ++ dropMarker text.toList := htext ▸ by assumption
        exact (List.mem_append.1 hmem).resolve_left hnone
      apply String.toList_injective
      calc text.toList = marker.toList ++ dropMarker text.toList := htext
        _ = marker.toList ++ (keyChars text.toList ++ '=' :: valueChars text.toList) := by
            rw [hchars, hvalue, takeWhile_append_valueChars hmem]
        _ = (marker ++ key text ++ "=" ++ value text).toList := by simp [key, value]
    · have hmem : '=' ∉ dropMarker text.toList := by
        intro hmem
        have hmem : '=' ∈ text.toList := htext ▸ List.mem_append_right _ hmem
        contradiction
      have hself : (dropMarker text.toList).takeWhile (· ≠ '=') = dropMarker text.toList := by
        rw [List.takeWhile_eq_self_iff]
        intro c hc
        exact decide_eq_true fun he => hmem (he ▸ hc)
      constructor
      · apply String.toList_injective
        rw [String.toList_append, key, String.toList_ofList, hchars, hself, ← htext]
      · rw [value, hvalue, valueChars_of_notMem hmem]
  · rw [key, String.toList_ofList, hchars]
    exact equals_notMem_takeWhile _

theorem parts_of_lacksKey (hline : '\n' ∉ text.toList) (h : LacksKey text) :
    ∃ marker ∈ markers, text = marker ++ "=" ++ value text ∧
      key text = "=" ++ String.ofList ((value text).toList.takeWhile (· ≠ '=')) := by
  obtain ⟨marker, hmarker, rest, htext⟩ := h
  have hchars : text.toList = marker.toList ++ '=' :: rest.toList := by simp [htext]
  have hvalue : value text = rest := by
    rw [value, hchars, valueChars_append (equals_notMem_marker hmarker)]
    exact String.ofList_toList
  have hdrop : dropMarker text.toList = '=' :: rest.toList := by
    rw [hchars, dropMarker_of_equals hmarker]
  refine ⟨marker, hmarker, hvalue.symm ▸ htext, ?_⟩
  rw [key, keyChars_of_notMem hline hdrop, hvalue]
  apply String.toList_injective
  simp

theorem not_reassembles_of_lacksKey (hline : '\n' ∉ text.toList) (h : LacksKey text) :
    ¬Reassembles text (key text) (value text) ∧ '=' ∈ (key text).toList := by
  obtain ⟨marker, hmarker, htext, hkey⟩ := parts_of_lacksKey hline h
  have hequals : '=' ∈ (key text).toList := by simp [hkey]
  refine ⟨?_, hequals⟩
  intro ⟨marker', _, hparts⟩
  have hmem : '=' ∈ text.toList := by
    rw [htext]
    simp
  rw [if_pos hmem] at hparts
  have hsame : marker' ++ key text = marker := by
    have htails : marker' ++ key text ++ ("=" ++ value text) = marker ++ ("=" ++ value text) := by
      rw [← String.append_assoc, ← hparts, ← String.append_assoc]
      exact htext
    exact String.append_left_inj _ |>.1 htails
  apply equals_notMem_marker hmarker
  rw [← hsame, String.toList_append]
  exact List.mem_append_right _ hequals

/-- The parts of a line that is no import make up the line exactly where it does not lack a key. Where it does,
it is not cut at the `=` behind which the value starts. -/
theorem directive_reassembles_iff (policy : CommentPolicy) (file : Path) (line depth : Int) {text : String}
    (hline : '\n' ∉ text.toList) (himport : text.toList.head? ≠ some '!') :
    ∃ d, Directive.ofText policy file line depth text = .ok d ∧
      (Reassembles text d.key d.value ↔ ¬LacksKey text) ∧
      ('=' ∉ d.key.toList ↔ ¬LacksKey text) ∧
      (LacksKey text → ∃ marker ∈ markers, text = marker ++ "=" ++ d.value ∧
        d.key = "=" ++ String.ofList (d.value.toList.takeWhile (· ≠ '='))) := by
  have hkind : LineKind.ofText policy text ≠ .importing :=
    fun hk => himport (LineKind.ofText_eq_importing_iff.1 hk)
  refine ⟨_, Directive.ofText_eq_ok_iff.2 ⟨hkind, rfl⟩, ?_, ?_, parts_of_lacksKey hline⟩
  · constructor
    · intro hparts hlacks
      exact (not_reassembles_of_lacksKey hline hlacks).1 hparts
    · intro hkey
      exact (reassembles_of_key hline himport hkey).1
  · constructor
    · intro hequals hlacks
      exact hequals (not_reassembles_of_lacksKey hline hlacks).2
    · intro hkey
      exact (reassembles_of_key hline himport hkey).2

/-- Only one of two markers goes, and the value keeps its own `=`. -/
theorem marked_directive_reassembles :
    ('\n' ∉ "--A=1=2".toList ∧ "--A=1=2".toList.head? ≠ some '!') ∧
      ∃ d, Directive.ofText .comment (.ofString "/d") 1 0 "--A=1=2" = .ok d ∧
        Reassembles "--A=1=2" d.key d.value := by
  have hline : '\n' ∉ "--A=1=2".toList := by decide +kernel
  have himport : "--A=1=2".toList.head? ≠ some '!' := by decide +kernel
  obtain ⟨d, hd, hparts, -⟩ := directive_reassembles_iff .comment (.ofString "/d") 1 0 hline himport
  refine ⟨⟨hline, himport⟩, d, hd, hparts.2 ?_⟩
  rw [lacksKey_iff himport]
  decide +kernel

/-- The line `=a` is its own key, and `a` is its value as well. -/
theorem keyless_not_reassembled :
    Text.trim "=a" = "=a" ∧ '\n' ∉ "=a".toList ∧ "=a".toList.head? ≠ some '!' ∧
      ∃ d, Directive.ofText .inclusion (.ofString "/d") 1 0 "=a" = .ok d ∧
        ¬Reassembles "=a" d.key d.value := by
  have hkind : LineKind.ofText .inclusion "=a" ≠ .importing := by decide +kernel
  refine ⟨by decide +kernel, by decide +kernel, by decide +kernel, _,
    Directive.ofText_eq_ok_iff.2 ⟨hkind, rfl⟩, ?_⟩
  decide +kernel

end LayeredConfig.Line
