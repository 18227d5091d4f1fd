namespace LayeredConfig.Text

def lines (s : String) : List String := (s.toList.splitOn '\n').map String.ofList

def dropFinalNewline (cs : List Char) : List Char :=
  if cs.getLast? = some '\n' then cs.dropLast else cs

/-- Every way of ending a line becomes a line feed: a carriage return counts as one, and so does a
carriage return together with the line feed after it. -/
def unifyNewlines : List Char → List Char
  | [] => []
  | '\r' :: '\n' :: cs => '\n' :: unifyNewlines cs
  | c :: cs => (if c = '\r' then '\n' else c) :: unifyNewlines cs

theorem lines_append_newline (s t : String) : lines (s ++ "\n" ++ t) = lines s ++ lines t := by
  simp [lines, List.splitOn, List.splitOnP_append_cons]

theorem lines_of_notMem {s : String} (h : '\n' ∉ s.toList) : lines s = [s] := by
  rw [lines, List.splitOn_eq_singleton h, List.map_singleton, String.ofList_toList]

theorem zipIdx_pairwise {α : Type} (xs : List α) (k : Nat) :
    (xs.zipIdx k).Pairwise fun a b => a.2 < b.2 := by
  have hnumbers : ((xs.zipIdx k).map Prod.snd).Pairwise (· < ·) := by
    rw [List.zipIdx_map_snd]
    exact List.pairwise_lt_range'
  exact List.pairwise_map.1 hnumbers

theorem unifyNewlines_of_notMem {cs : List Char} (h : '\r' ∉ cs) : unifyNewlines cs = cs := by
  fun_induction unifyNewlines cs with
  | case1 => rfl
  | case2 cs _ => simp at h
  | case3 c cs _ ih =>
      simp only [List.mem_cons, not_or] at h
      rw [ih h.2, if_neg (fun e => h.1 e.symm)]

theorem notMem_unifyNewlines (cs : List Char) : '\r' ∉ unifyNewlines cs := by
  fun_induction unifyNewlines cs with
  | case1 => simp
  | case2 cs ih => simpa using ih
  | case3 c cs _ ih =>
      simp only [List.mem_cons, not_or]
      refine ⟨?_, ih⟩
      split
      · decide
      · exact fun e => (by assumption : ¬c = '\r') e.symm

end LayeredConfig.Text
