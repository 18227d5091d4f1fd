import LayeredConfig.Proofs.Hierarchy.Expansion
import LayeredConfig.Proofs.Text.Lines

namespace LayeredConfig

open Text (BehindReturns StartsAt isBlank saved)

variable {s : Settings} {t : FileTree}

namespace Line

variable {l : List Char}

theorem isContent_iff_starts :
    IsContent (String.ofList l) ↔ ∃ c, (Text.trimChars l).head? = some c ∧ c ≠ '!' := by
  cases hl : Text.trimChars l <;> simp [IsContent, IsImport, Text.trim, hl]

theorem trim_ne_empty_iff_starts :
    Text.trim (String.ofList l) ≠ "" ↔ ∃ c, (Text.trimChars l).head? = some c ∧ True := by
  cases hl : Text.trimChars l <;> simp [Text.trim, hl]

end Line

theorem Stream.items_saved (root : Location) {content : String}
    (h : BehindReturns (fun after => ∀ c ∈ after, isBlank c) content.toList) :
    items s t root (saved content) = items s t root content := by
  have hsame : Text.SameLines isBlank (content.toList.splitOn '\n')
      ((Text.unifyNewlines content.toList).splitOn '\n') := by
    apply Text.sameLines_unifyNewlines (by decide)
    exact h.imp fun after hafter => ⟨hafter, fun c hc => hafter c ((List.takeWhile_sublist _).subset hc)⟩
  have hexpand : ∀ text : String, expand s t [] root (Text.lines text) =
      ((text.toList.splitOn '\n').zipIdx 1).flatMap
        fun line => expandLine s t [] root (String.ofList line.1) line.2 := by
    intro text
    simp only [expand_eq_flatMap, Text.lines, List.zipIdx_map, List.flatMap_map, Prod.map_fst,
      Prod.map_snd, id_eq]
  rw [items, items, hexpand, hexpand, Text.toList_saved]
  refine (hsame.flatMap (f := fun l => expandLine s t [] root (String.ofList l)) ?_ ?_ 1).symm
  · intro l n hl
    rw [expandLine, readLine_of_blank (by simp [Text.trim, Text.trimChars_of_blank hl])]
  · intro l b n hb
    rw [expandLine, expandLine, readLine_congr (Text.trim_ofList_append_of_blank hb)]

theorem Diagnostic.ofDocument_saved (policy : CommentPolicy) (document : Path) (is : List Issue)
    {content : String} (h : BehindReturns (fun after => (∀ c ∈ after, isBlank c) ∧
      ∀ c ∈ after.takeWhile (· ≠ '\n'), c = '\r') content.toList) :
    ofDocument policy document (saved content) is = ofDocument policy document content is := by
  have hsame : Text.SameLines (· = '\r') (content.toList.splitOn '\n')
      ((Text.unifyNewlines content.toList).splitOn '\n') := by
    apply Text.sameLines_unifyNewlines rfl
    exact h.imp fun after hafter => ⟨hafter.1, fun c hc => decide_eq_true (hafter.2 c hc)⟩
  have hdocument : ∀ text : String, ofDocument policy document text is =
      ((text.toList.splitOn '\n').zipIdx 1).flatMap fun line =>
        (ofLine policy (is.filter (·.file = document)) line.2 (String.ofList line.1)).toList := by
    intro text
    rw [ofDocument, Text.lines, List.zipIdx_map, List.filterMap_map, List.filterMap_eq_flatMap_toList]
    simp only [Function.comp_def, Prod.map_fst, Prod.map_snd, id_eq]
  rw [hdocument, hdocument, Text.toList_saved]
  refine (hsame.flatMap (f := fun l n =>
    (ofLine policy (is.filter (·.file = document)) n (String.ofList l)).toList) ?_ ?_ 1).symm
  · intro l n hl
    rw [ofLine, if_pos (.inl (by simp [Text.trim, Text.trimChars_of_blank hl]))]
    rfl
  · intro l b n hb
    have hblank : ∀ c ∈ b, isBlank c := by
      intro c hc
      rw [of_decide_eq_true (hb c hc)]
      decide
    have hstop (issues : List Issue) : combine n (String.ofList (l ++ b)) issues =
        combine n (String.ofList l) issues := by
      cases issues with
      | nil => rfl
      | cons i is => simp [combine, Text.dropEndWhile_append_of_pos hb]
    simp only [ofLine, Text.trim_ofList_append_of_blank hblank, hstop]

namespace Hierarchy

variable {h : Hierarchy} {k : Nat}

theorem mem_lines_root_iff {raw : String} {n : Nat} : (raw, n) ∈ h.lines h.root ↔
    ∃ k l, n = k + 1 ∧ (h.content.toList.splitOn '\n')[k]? = some l ∧ raw = String.ofList l := by
  rw [lines_root, List.mk_mem_zipIdx_iff_le_and_getElem?_sub, Text.lines, List.getElem?_map,
    Option.map_eq_some_iff]
  constructor
  · rintro ⟨hn, l, hl, rfl⟩
    exact ⟨n - 1, l, by omega, hl, rfl⟩
  · rintro ⟨k, l, rfl, hl, rfl⟩
    exact ⟨by omega, l, hl, rfl⟩

theorem startsAt_iff_directive : StartsAt (· ≠ '!') (h.content.toList.splitOn '\n') k ↔
    ∃ d ∈ h.stream.directives, d.anchor = (.ofLocation h.root, (k : Int) + 1) := by
  constructor
  · rintro ⟨l, c, hl, hc⟩
    refine ⟨_, mem_stream_directives_iff.2 ⟨[], h.root, String.ofList l, k + 1,
      isPath_singleton_iff.2 rfl, mem_lines_root_iff.2 ⟨k, l, rfl, hl, rfl⟩,
      Line.isContent_iff_starts.2 ⟨c, hc⟩, rfl⟩, ?_⟩
    simp [Directive.anchor]
  · rintro ⟨d, hd, hanchor⟩
    obtain ⟨importers, file, raw, n, hp, hl, hc, rfl⟩ := mem_stream_directives_iff.1 hd
    obtain ⟨hfile, hn⟩ := Prod.mk.inj hanchor
    obtain rfl : file = h.root := Path.ofLocation_inj.1 hfile
    obtain ⟨j, l, rfl, hj, rfl⟩ := mem_lines_root_iff.1 hl
    obtain ⟨c, hc⟩ := Line.isContent_iff_starts.1 hc
    obtain rfl : j = k := Int.ofNat_inj.1 (by simpa using hn)
    exact ⟨l, c, hj, hc⟩

theorem startsAt_iff_trace (hs : h.Searched)
    (hclosed : ∀ name, ∃ obstruction, Import.open? h.settings h.tree [h.root] name = .error obstruction) :
    StartsAt (fun _ => True) (h.content.toList.splitOn '\n') k ↔
      (∃ d ∈ h.stream.directives, d.anchor = (.ofLocation h.root, (k : Int) + 1)) ∨
        ∃ i ∈ h.stream.issues, i.anchor = (.ofLocation h.root, (k : Int) + 1) := by
  constructor
  · rintro ⟨l, c, hl, hc⟩
    rcases Line.isContent_or_isImport (Line.trim_ne_empty_iff_starts.2 ⟨c, hc⟩) with hcontent | himport
    · obtain ⟨c, hc⟩ := Line.isContent_iff_starts.1 hcontent
      exact .inl (startsAt_iff_directive.1 ⟨l, c, hl, hc⟩)
    · have hline : (String.ofList l, k + 1) ∈ h.lines h.root := mem_lines_root_iff.2 ⟨k, l, rfl, hl, rfl⟩
      obtain ⟨obstruction, ho⟩ := hclosed (Import.nameOfLine (Text.trim (String.ofList l)))
      cases obstruction with
      | failure e => exact absurd ⟨himport, e, Stream.open?_eq_failure_iff.1 ho⟩ (hs _ .refl _ hline)
      | problem problem =>
          refine .inr ⟨_, mem_stream_issues_iff.2 ⟨[], h.root, String.ofList l, k + 1,
            isPath_singleton_iff.2 rfl, hline, himport, problem, ho, rfl⟩, ?_⟩
          simp [Issue.anchor, ImportProblem.issue]
  · rintro (hd | ⟨i, hi, hanchor⟩)
    · obtain ⟨l, c, hl, hc, _⟩ := startsAt_iff_directive.2 hd
      exact ⟨l, c, hl, hc, trivial⟩
    · obtain ⟨importers, file, raw, n, hp, hl, himport, problem, _, rfl⟩ := mem_stream_issues_iff.1 hi
      obtain ⟨hfile, hn⟩ := Prod.mk.inj hanchor
      obtain rfl : file = h.root := Path.ofLocation_inj.1 hfile
      obtain ⟨j, l, rfl, hj, rfl⟩ := mem_lines_root_iff.1 hl
      obtain ⟨c, hc⟩ := Line.trim_ne_empty_iff_starts.1 himport.trim_ne_empty
      obtain rfl : j = k := Int.ofNat_inj.1 (by simpa [ImportProblem.issue] using hn)
      exact ⟨l, c, hj, hc⟩

end Hierarchy

namespace Stream

variable {root : Location} {cs : List Char}

theorem behindReturns_not_isContent
    (h : ofText s t root (saved (String.ofList cs)) = ofText s t root (String.ofList cs)) :
    BehindReturns (fun after => ∀ line ∈ Text.lines (saved (String.ofList after)), ¬Line.IsContent line) cs := by
  have hsame : ∀ k, StartsAt (· ≠ '!') (cs.splitOn '\n') k ↔
      StartsAt (· ≠ '!') ((Text.unifyNewlines cs).splitOn '\n') k := by
    intro k
    have hraw := Hierarchy.startsAt_iff_directive (h := ⟨s, t, root, String.ofList cs⟩) (k := k)
    have hsaved := Hierarchy.startsAt_iff_directive (h := ⟨s, t, root, saved (String.ofList cs)⟩) (k := k)
    simp only [Hierarchy.stream, h, Text.toList_saved, String.toList_ofList] at hraw hsaved
    rw [hraw, hsaved]
  intro before after he hn line hline hcontent
  simp only [Text.lines, Text.toList_saved, String.toList_ofList] at hline
  obtain ⟨l, hl, rfl⟩ := List.mem_map.1 hline
  obtain ⟨c, hc⟩ := Line.isContent_iff_starts.1 hcontent
  obtain ⟨k, hk⟩ := List.mem_iff_getElem?.1 hl
  exact Text.behindReturns_not_startsAt hsame before after he hn k ⟨l, c, hk, hc⟩

theorem behindReturns_isBlank (hs : Hierarchy.Searched ⟨s, t, root, String.ofList cs⟩)
    (hs' : Hierarchy.Searched ⟨s, t, root, saved (String.ofList cs)⟩)
    (hclosed : ∀ name, ∃ obstruction, Import.open? s t [root] name = .error obstruction)
    (h : ofText s t root (saved (String.ofList cs)) = ofText s t root (String.ofList cs)) :
    BehindReturns (fun after => ∀ c ∈ after, isBlank c) cs := by
  have hsame : ∀ k, StartsAt (fun _ => True) (cs.splitOn '\n') k ↔
      StartsAt (fun _ => True) ((Text.unifyNewlines cs).splitOn '\n') k := by
    intro k
    have hraw := Hierarchy.startsAt_iff_trace (k := k) hs hclosed
    have hsaved := Hierarchy.startsAt_iff_trace (k := k) hs' hclosed
    simp only [Hierarchy.stream, h, Text.toList_saved, String.toList_ofList] at hraw hsaved
    rw [hraw, hsaved]
  intro before after he hn c hc
  by_contra hblank
  obtain ⟨k, hk⟩ := Text.exists_startsAt hc hblank
  obtain ⟨m, _, hm⟩ := hk.exists_unifyNewlines
  exact Text.behindReturns_not_startsAt hsame before after he hn m hm

end Stream

namespace Document

variable {path : Path} {root : Location} {content : String} {bytes : List UInt8} {cs : List Char}

theorem stream_saved (h : BehindReturns (fun after => ∀ c ∈ after, isBlank c) content.toList) :
    stream s t path (some (saved content)) = stream s t path (some content) := by
  have hitems (root : Location) : Stream.items s t root (saved content) = Stream.items s t root content :=
    Stream.items_saved root h
  simp only [stream, expansion, text, bind_assoc, pure_bind]
  cases hl : locate t path with
  | error e => rfl
  | ok root => simp only [bind, Except.bind, hitems]

theorem check_saved (h : BehindReturns (fun after => (∀ c ∈ after, isBlank c) ∧
      ∀ c ∈ after.takeWhile (· ≠ '\n'), c = '\r') content.toList) (version : Int) :
    check s t path version (some (saved content)) = check s t path version (some content) := by
  have hblank : BehindReturns (fun after => ∀ c ∈ after, isBlank c) content.toList :=
    h.imp fun _ hafter => hafter.1
  have hissues (path : Path) : issues s t path (some (saved content)) = issues s t path (some content) := by
    rw [issues, issues, stream_saved hblank]
  have hshown (path : Path) (is : List Issue) : diagnostics t s.commentPolicy path (saved content) is =
      diagnostics t s.commentPolicy path content is := by
    simp only [diagnostics, Diagnostic.ofDocument_saved s.commentPolicy _ is h]
  cases hl : locate t path with
  | error e => simp only [check, hl, bind, Except.bind]
  | ok root => simp only [check, hl, bind, Except.bind, text, hissues, hshown]

theorem text_of_decode (hbytes : t.readBytes (.ofLocation root) = .ok bytes)
    (hcs : Text.Utf8.decode bytes = .ok cs) : text t root none = .ok (saved (String.ofList cs)) := by
  simp [text, Import.readDocument, FileTree.readText, FileTree.textOfBytes, hbytes, hcs, bind, Except.bind,
    Except.map, Except.mapError, saved]

/-- A document is read from its file as from its saved text, and as from the text itself where nothing but
blanks is behind the carriage returns that stand alone. Where anything else is and there is a stream, there are
only imports, and some of them open a file, or the two differ. -/
theorem saved_document_agrees (hroot : t.canonical path = .ok root)
    (hbytes : t.readBytes (.ofLocation root) = .ok bytes) (hcs : Text.Utf8.decode bytes = .ok cs)
    (s : Settings) :
    (stream s t path none = stream s t path (some (saved (String.ofList cs))) ∧
      ∀ version, check s t path version none = check s t path version (some (saved (String.ofList cs)))) ∧
    (BehindReturns (fun after => ∀ c ∈ after, isBlank c) cs →
      stream s t path none = stream s t path (some (String.ofList cs))) ∧
    (BehindReturns (fun after => (∀ c ∈ after, isBlank c) ∧
        ∀ c ∈ after.takeWhile (· ≠ '\n'), c = '\r') cs →
      ∀ version, check s t path version none = check s t path version (some (String.ofList cs))) ∧
    (∀ st, stream s t path none = .ok st → stream s t path (some (String.ofList cs)) = .ok st →
      BehindReturns (fun after =>
        ∀ line ∈ Text.lines (saved (String.ofList after)), ¬Line.IsContent line) cs) ∧
    ((∀ name, ∃ obstruction, Import.open? s t [root] name = .error obstruction) →
      ∀ st, stream s t path none = .ok st → stream s t path (some (String.ofList cs)) = .ok st →
        BehindReturns (fun after => ∀ c ∈ after, isBlank c) cs) := by
  have hgiven (content : String) : (⟨s, t, root, content⟩ : Hierarchy).FoundAt path (some content) :=
    Hierarchy.foundAt_of_canonical hroot
  have hlocate : locate t path = .ok root := (hgiven (String.ofList cs)).locate
  have htext := text_of_decode hbytes hcs
  have hfile : (⟨s, t, root, saved (String.ofList cs)⟩ : Hierarchy).FoundAt path none := ⟨hlocate, htext⟩
  have hstream := hfile.stream.trans (hgiven (saved (String.ofList cs))).stream.symm
  have hcheck (version : Int) : check s t path version none =
      check s t path version (some (saved (String.ofList cs))) := by
    have hsaved := (hgiven (saved (String.ofList cs))).text
    simp only [check, hlocate, bind, Except.bind, htext, hsaved]
  have hboth {st : Stream} (hnone : stream s t path none = .ok st)
      (hsome : stream s t path (some (String.ofList cs)) = .ok st) :
      Hierarchy.Searched ⟨s, t, root, String.ofList cs⟩ ∧
        Hierarchy.Searched ⟨s, t, root, saved (String.ofList cs)⟩ ∧
        Stream.ofText s t root (saved (String.ofList cs)) = Stream.ofText s t root (String.ofList cs) := by
    rw [hfile.stream] at hnone
    rw [(hgiven (String.ofList cs)).stream] at hsome
    obtain ⟨hs', rfl⟩ := Hierarchy.settle_eq_ok_iff.1 hnone
    obtain ⟨hs, he⟩ := Hierarchy.settle_eq_ok_iff.1 hsome
    exact ⟨hs, hs', he⟩
  have hchars : (String.ofList cs).toList = cs := String.toList_ofList
  refine ⟨⟨hstream, hcheck⟩, fun h => ?_, fun h version => ?_, fun st hnone hsome => ?_,
    fun hclosed st hnone hsome => ?_⟩
  · exact hstream.trans (stream_saved (hchars.symm ▸ h))
  · exact (hcheck version).trans (check_saved (hchars.symm ▸ h) version)
  · exact Stream.behindReturns_not_isContent (hboth hnone hsome).2.2
  · obtain ⟨hs, hs', he⟩ := hboth hnone hsome
    exact Stream.behindReturns_isBlank hs hs' hclosed he

open Hierarchy (place)

/-- A document that is just what its file holds. -/
def onDisk (content : String) : Hierarchy where
  settings := ⟨.ofString "/w", .ofString "/w/m", "x", .inclusion⟩
  tree := {
    here := place "/w"
    entries := [(place "/w", .directory), (place "/w/d", .file content.toUTF8.data.toList)]
    nodup := (by decide +kernel : [place "/w", place "/w/d"].Nodup) }
  root := place "/w/d"
  content := content

theorem ended_document_agrees :
    let h := onDisk "A=1\r\nB=2\n\r\r"
    h.tree.canonical (.ofString "d") = .ok h.root ∧
      h.tree.readBytes (.ofLocation h.root) = .ok h.content.toUTF8.data.toList ∧
      Text.Utf8.decode h.content.toUTF8.data.toList = .ok h.content.toList ∧
      stream h.settings h.tree (.ofString "d") none =
        stream h.settings h.tree (.ofString "d") (some h.content) ∧
      check h.settings h.tree (.ofString "d") 1 none =
        check h.settings h.tree (.ofString "d") 1 (some h.content) := by
  intro h
  have hroot : h.tree.canonical (.ofString "d") = .ok h.root := by decide +kernel
  have hbytes : h.tree.readBytes (.ofLocation h.root) = .ok h.content.toUTF8.data.toList := by decide +kernel
  have hcs : Text.Utf8.decode h.content.toUTF8.data.toList = .ok h.content.toList := by decide +kernel
  obtain ⟨-, hstream, hcheck, -, -⟩ := saved_document_agrees hroot hbytes hcs h.settings
  have hends : BehindReturns (fun after => after.all isBlank ∧ (after.takeWhile (· ≠ '\n')).all (· = '\r'))
      h.content.toList := by decide +kernel
  have hreturns : BehindReturns (fun after => (∀ c ∈ after, isBlank c) ∧
      ∀ c ∈ after.takeWhile (· ≠ '\n'), c = '\r') h.content.toList :=
    hends.imp fun after hafter => by simpa using hafter
  rw [String.ofList_toList] at hstream hcheck
  exact ⟨hroot, hbytes, hcs, hstream (hreturns.imp fun _ hafter => hafter.1), hcheck hreturns 1⟩

/-- A carriage return between two directives makes them two lines, but only in the file. -/
theorem torn_document_differs :
    let h := onDisk "A=1\rB=2"
    h.tree.canonical (.ofString "d") = .ok h.root ∧
      h.tree.readBytes (.ofLocation h.root) = .ok h.content.toUTF8.data.toList ∧
      Text.Utf8.decode h.content.toUTF8.data.toList = .ok h.content.toList ∧
      stream h.settings h.tree (.ofString "d") none ≠
        stream h.settings h.tree (.ofString "d") (some h.content) := by
  decide +kernel

end Document

end LayeredConfig
