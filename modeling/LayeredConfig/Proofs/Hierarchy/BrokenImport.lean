import LayeredConfig.Proofs.FileTree.Overlong
import LayeredConfig.Proofs.Hierarchy.Cycles
import LayeredConfig.Proofs.Hierarchy.Revision
import LayeredConfig.Proofs.Hierarchy.Simulation
import LayeredConfig.Proofs.Text.Lines

namespace LayeredConfig.Hierarchy

variable (h h' : Hierarchy)

/-- The import names no file, or a file that cannot be read as text. -/
def Broken (raw : String) : Prop :=
  Line.IsImport raw ∧ (Import.locate h.settings h.tree (Import.nameOfLine (Text.trim raw)) = .ok none ∨
    ∃ v e, Import.locate h.settings h.tree (Import.nameOfLine (Text.trim raw)) = .ok (some v) ∧
      Import.readDocument h.tree v = .error e)

instance (raw : String) : Decidable (h.Broken raw) :=
  decidable_of_iff (Line.IsImport raw ∧
      (match Import.locate h.settings h.tree (Import.nameOfLine (Text.trim raw)) with
        | .error _ => false
        | .ok found => found.all fun v => !(Import.readDocument h.tree v).isOk) = true) <| by
    unfold Broken
    refine and_congr_right fun _ => ?_
    rcases Import.locate h.settings h.tree (Import.nameOfLine (Text.trim raw)) with _ | _ | v
    · simp
    · simp
    · cases hread : Import.readDocument h.tree v <;> simp [hread, Except.isOk, Except.toBool]

/-- A line stays as it is, or is left blank where it is a broken import. -/
def Blanks (a b : String × Nat) : Prop := b = a ∨ h.Broken a.1 ∧ Text.trim b.1 = ""

instance (a b : String × Nat) : Decidable (h.Blanks a b) := inferInstanceAs (Decidable (_ ∨ _))

/-- Broken imports give way to blank lines, as many of them as one likes. -/
structure Blanking : Prop extends Revision h h' where
  lines : ∀ file ∈ h.files, List.Forall₂ h.Blanks (h.lines file) (h'.lines file)

variable {h h'} {raw : String} {n : Nat} {file : Location} {importers : List Location}

theorem broken_iff : h.Broken raw ↔ Line.IsImport raw ∧ (∀ v, ¬h.Imports raw v) ∧ ¬h.Overlong raw := by
  refine and_congr_right fun hi => ?_
  unfold Imports Overlong
  rcases Import.locate h.settings h.tree (Import.nameOfLine (Text.trim raw)) with _ | _ | v
  · simp [hi]
  · simp
  · cases hread : Import.readDocument h.tree v <;> simp [hi, hread]

theorem Broken.exists_problem (hb : h.Broken raw) :
    ∃ problem : ImportProblem, problem.kind = .missingImport ∧ ∀ active,
      Import.open? h.settings h.tree active (Import.nameOfLine (Text.trim raw)) =
        .error (.problem problem) := by
  obtain ⟨hi, hnone, hlong⟩ := broken_iff.1 hb
  exact Hierarchy.exists_problem hi hnone hlong

theorem kind_eq_missingImport_iff {active : List Location} {problem : ImportProblem}
    (hi : Line.IsImport raw) (ho : Import.open? h.settings h.tree active
      (Import.nameOfLine (Text.trim raw)) = .error (.problem problem)) :
    problem.kind = .missingImport ↔ h.Broken raw := by
  constructor
  · intro hk
    refine broken_iff.2 ⟨hi, ?_, ?_⟩
    · rintro v ⟨_, hlocate, text, hread⟩
      have hcyclic : ∃ chain, problem = .cyclic chain := by
        unfold Import.open? at ho
        simp only [hlocate, hread] at ho
        split at ho <;> cases ho
        exact ⟨_, rfl⟩
      obtain ⟨chain, rfl⟩ := hcyclic
      cases hk
    · rintro ⟨_, e, hlocate⟩
      rw [Stream.open?_eq_failure_iff.2 hlocate] at ho
      cases ho
  · intro hb
    obtain ⟨problem', hk, hopen⟩ := hb.exists_problem
    obtain rfl := Obstruction.problem.inj (Except.error.inj ((hopen active).symm.trans ho))
    exact hk

theorem missing_mem_issues_iff {i : Issue} :
    i ∈ h.stream.issues ∧ i.kind = .missingImport ↔ ∃ importers file raw n, h.IsPath (importers ++ [file]) ∧
      (raw, n) ∈ h.lines file ∧ h.Broken raw ∧ ∃ problem,
        Import.open? h.settings h.tree (importers ++ [file]) (Import.nameOfLine (Text.trim raw)) =
          .error (.problem problem) ∧
        i = problem.issue h.settings file n (Text.trim raw) := by
  rw [mem_stream_issues_iff]
  constructor
  · rintro ⟨⟨importers, file, raw, n, hp, hl, hi, problem, ho, rfl⟩, hk⟩
    exact ⟨importers, file, raw, n, hp, hl, (kind_eq_missingImport_iff hi ho).1 hk, problem, ho, rfl⟩
  · rintro ⟨importers, file, raw, n, hp, hl, hb, problem, ho, rfl⟩
    exact ⟨⟨importers, file, raw, n, hp, hl, hb.1, problem, ho, rfl⟩,
      (kind_eq_missingImport_iff hb.1 ho).2 hb⟩

theorem missing_anchors (h : Hierarchy) :
    {a | ∃ i ∈ h.stream.issues, i.kind = .missingImport ∧ i.anchor = a} =
      {a | ∃ file raw n, h.Reaches file ∧ (raw, n) ∈ h.lines file ∧ h.Broken raw ∧
        a = (.ofLocation file, (n : Int))} := by
  ext a
  constructor
  · rintro ⟨i, hi, hk, rfl⟩
    obtain ⟨importers, file, raw, n, hp, hl, hb, _, _, rfl⟩ := missing_mem_issues_iff.1 ⟨hi, hk⟩
    exact ⟨file, raw, n, hp.reaches, hl, hb, rfl⟩
  · rintro ⟨file, raw, n, hfile, hl, hb, rfl⟩
    obtain ⟨importers, hp⟩ := hfile.exists_isPath
    obtain ⟨problem, _, hopen⟩ := hb.exists_problem
    obtain ⟨hi, hk⟩ := missing_mem_issues_iff.2 ⟨importers, file, raw, n, hp, hl, hb, problem, hopen _, rfl⟩
    exact ⟨_, hi, hk, rfl⟩

theorem exists_readLine_eq_file_iff {target : Location} :
    (∃ content, Stream.readLine h.settings h.tree importers file raw n = .file target content) ↔
      h.Imports raw target ∧ target ∉ importers ++ [file] := by
  simp only [Stream.readLine_eq_file_iff, Imports, exists_and_left, exists_and_right, and_assoc]

/-- Both lists hold the same directives, and the same failure ends them. -/
def Alike (xs xs' : List Item) : Prop :=
  xs.filterMap Item.directive? = xs'.filterMap Item.directive? ∧
    xs.findSome? Item.failure? = xs'.findSome? Item.failure?

theorem Alike.append {xs xs' ys ys' : List Item} (hxs : Alike xs xs') (hys : Alike ys ys') :
    Alike (xs ++ ys) (xs' ++ ys') := by
  refine ⟨?_, ?_⟩
  · rw [List.filterMap_append, List.filterMap_append, hxs.1, hys.1]
  · rw [List.findSome?_append, List.findSome?_append, hxs.2, hys.2]

theorem readLine_of_closed (hi : Line.IsImport raw)
    (hclosed : ∀ target, ¬(h.Imports raw target ∧ target ∉ importers ++ [file])) :
    ∃ x : Item, Stream.readLine h.settings h.tree importers file raw n = .items [x] ∧
      x.directive? = none ∧ ∀ e, x.failure? = some e ↔
        Import.locate h.settings h.tree (Import.nameOfLine (Text.trim raw)) = .error e := by
  have hnone : ∀ target content,
      Stream.readLine h.settings h.tree importers file raw n ≠ .file target content :=
    fun target content hr => hclosed target (exists_readLine_eq_file_iff.1 ⟨content, hr⟩)
  rw [Stream.readLine_of_isImport hi] at hnone ⊢
  have hopen := @Stream.open?_eq_failure_iff h.settings h.tree (importers ++ [file])
    (Import.nameOfLine (Text.trim raw))
  simp only [← hopen]
  split
  · simp_all
  · rename_i obstruction ho
    refine ⟨_, rfl, ?_⟩
    cases obstruction with
    | problem p => simp [Obstruction.item, Item.directive?, Item.failure?, ho]
    | failure e => simp [Obstruction.item, Item.directive?, Item.failure?, ho]

structure Beside (h : Hierarchy) (v v' : Visit) : Prop where
  importers : v'.importers = v.importers
  file : v'.file = v.file
  root : h.root ∈ v.active
  lines : List.Forall₂ h.Blanks v.lines v'.lines

theorem Blanking.beside_of_readLine (hb : Blanking h h') {target : Location} {content content' : String}
    (hroot : h.root ∈ importers ++ [file])
    (hr : Stream.readLine h.settings h.tree importers file raw n = .file target content)
    (hr' : Stream.readLine h'.settings h'.tree importers file raw n = .file target content') :
    h.Beside ⟨importers ++ [file], target, content⟩ ⟨importers ++ [file], target, content'⟩ := by
  obtain ⟨_, hlocate, hread, hnew⟩ := Stream.readLine_eq_file_iff.1 hr
  obtain ⟨_, _, hread', _⟩ := Stream.readLine_eq_file_iff.1 hr'
  have hne : target ≠ h.root := fun he => hnew (he ▸ hroot)
  have hlines := hb.lines target (List.mem_cons_of_mem _ (Import.mem_files_of_locate _ _ hlocate))
  rw [lines_of_ne_root hne hread, lines_of_ne_root (hb.root ▸ hne) hread'] at hlines
  exact ⟨rfl, rfl, List.mem_append_left _ hroot, hlines⟩

theorem Blanking.abreast (hb : Blanking h h') {v v' : Visit} (hv : h.Beside v v') {a b : String × Nat}
    (hab : h.Blanks a b) :
    Abreast Alike h.Beside v v' (v.reading h.settings h.tree a) (v'.reading h'.settings h'.tree b) := by
  obtain ⟨_, _, content⟩ := v
  obtain ⟨importers, file, content'⟩ := v'
  obtain ⟨rfl, rfl, hroot, _⟩ := hv
  simp only [Visit.reading]
  rcases hab with rfl | ⟨hbroken, hblank⟩
  · obtain ⟨raw, n⟩ := b
    by_cases ht : Text.trim raw = ""
    · rw [Stream.readLine_of_blank ht, Stream.readLine_of_blank ht]
      exact .items ⟨rfl, rfl⟩
    rcases Line.isContent_or_isImport ht with hc | hi
    · rw [Stream.readLine_of_isContent hc, Stream.readLine_of_isContent hc, hb.settings]
      exact .items ⟨rfl, rfl⟩
    by_cases hopens : ∃ target, h.Imports raw target ∧ target ∉ importers ++ [file]
    · -- The line opens the same file in both, whatever that file now says.
      obtain ⟨target, himports, hnew⟩ := hopens
      obtain ⟨content, hr⟩ := exists_readLine_eq_file_iff.2 ⟨himports, hnew⟩
      obtain ⟨content', hr'⟩ := exists_readLine_eq_file_iff.2 ⟨hb.imports_iff.2 himports, hnew⟩
      rw [hr, hr']
      exact .file (hb.beside_of_readLine hroot hr hr')
    · obtain ⟨x, hr, hx, he⟩ := readLine_of_closed hi (not_exists.1 hopens)
      obtain ⟨x', hr', hx', he'⟩ := readLine_of_closed (h := h') hi fun target ht =>
        hopens ⟨target, hb.imports_iff.1 ht.1, ht.2⟩
      have hfail : x.failure? = x'.failure? := by
        ext e
        rw [he, he', hb.locate]
      rw [hr, hr']
      exact .items ⟨by simp [hx, hx'], by simp [hfail]⟩
  · obtain ⟨hi, hnone, hlong⟩ := broken_iff.1 hbroken
    obtain ⟨x, hr, hx, he⟩ := readLine_of_closed hi fun target ht => hnone target ht.1
    have hfail : x.failure? = none := by
      rw [Option.eq_none_iff_forall_ne_some]
      exact fun e hx => hlong ⟨hi, e, (he e).1 hx⟩
    rw [hr, Stream.readLine_of_blank hblank]
    exact .items ⟨by simp [hx], by simp [hfail]⟩

theorem Blanking.simulation (hb : Blanking h h') :
    Simulation h.settings h.tree h'.settings h'.tree Alike h.Beside where
  nil := ⟨rfl, rfl⟩
  append := Alike.append
  step hv := hv.lines.imp fun _ _ hab => hb.abreast hv hab

theorem Blanking.alike (hb : Blanking h h') :
    Alike (h.start.items h.settings h.tree) (h'.start.items h'.settings h'.tree) := by
  have hlines := hb.lines h.root List.mem_cons_self
  rw [lines_root, ← hb.root, lines_root] at hlines
  have hstart : h.Beside h.start h'.start := ⟨rfl, hb.root, by simp [start, Visit.active], hlines⟩
  exact hb.simulation.items hstart

theorem missing_content {i : Issue} (hi : i ∈ h.stream.issues) (hk : i.kind = .missingImport) :
    i.severity = .warning ∧ i.directive = none ∧ ∃ file raw n, (raw, n) ∈ h.lines file ∧
      i.anchor = (.ofLocation file, (n : Int)) ∧ i.key = Line.key (Text.trim raw) := by
  obtain ⟨_, file, raw, n, _, hl, _, problem, _, rfl⟩ := missing_mem_issues_iff.1 ⟨hi, hk⟩
  refine ⟨?_, rfl, file, raw, n, hl, rfl, rfl⟩
  cases problem with
  | missing | unreadable => rfl
  | cyclic => cases hk

/-- Where every import that is reached can be looked up, what is reported as missing are the broken ones,
all of them, and apart from that they are no more than blank lines. -/
theorem broken_imports_exact {path : Path} {given : Option String} (hf : h.FoundAt path given) :
    ((∃ st, Document.stream h.settings h.tree path given = .ok st) ↔ h.Searched) ∧
      (∀ st, Document.stream h.settings h.tree path given = .ok st →
        {a | ∃ i ∈ st.issues, i.kind = .missingImport ∧ i.anchor = a} =
            {a | ∃ file raw n, h.Reaches file ∧ (raw, n) ∈ h.lines file ∧ h.Broken raw ∧
              a = (.ofLocation file, (n : Int))} ∧
          ∀ i ∈ st.issues, i.kind = .missingImport → i.severity = .warning ∧ i.directive = none ∧
            ∃ file raw n, (raw, n) ∈ h.lines file ∧ i.anchor = (.ofLocation file, (n : Int)) ∧
              i.key = Line.key (Text.trim raw)) ∧
      ∀ (h' : Hierarchy) (given' : Option String), Blanking h h' → h'.FoundAt path given' →
        Stream.directives <$> Document.stream h'.settings h'.tree path given' =
          Stream.directives <$> Document.stream h.settings h.tree path given := by
  refine ⟨?_, ?_, ?_⟩
  · rw [hf.stream]
    exact ⟨fun ⟨st, hst⟩ => (settle_eq_ok_iff.1 hst).1, fun hs => ⟨_, hs.settle _⟩⟩
  · intro st hst
    rw [hf.stream] at hst
    obtain ⟨_, rfl⟩ := settle_eq_ok_iff.1 hst
    exact ⟨h.missing_anchors, fun i => missing_content⟩
  · intro h' given' hb hf'
    obtain ⟨hdirectives, hfailure⟩ := hb.alike
    rw [hf.stream, hf'.stream, map_settle, map_settle]
    exact settle_congr hfailure.symm hdirectives.symm

/-- The document and `mid` import what is not there and what is not text. -/
def patchy : Hierarchy where
  settings := ⟨.ofString "/w", .ofString "/w/m", "x", .inclusion⟩
  tree := {
    here := place "/w"
    entries := [
      (place "/w", .directory), (place "/w/m", .directory),
      (place "/w/d", .file "!gone\nA\n!mid\n!bad".toUTF8.data.toList),
      (place "/w/m/mid", .file "M\n!lost\n!bad\nN=1".toUTF8.data.toList),
      (place "/w/m/bad", .file [0xff])]
    nodup := by decide +kernel }
  root := place "/w/d"
  content := "!gone\nA\n!mid\n!bad"

def blanked : Hierarchy where
  settings := patchy.settings
  tree := {
    here := place "/w"
    entries := [
      (place "/w", .directory), (place "/w/m", .directory),
      (place "/w/d", .file "\nA\n!mid\n".toUTF8.data.toList),
      (place "/w/m/mid", .file "M\n\n\nN=1".toUTF8.data.toList),
      (place "/w/m/bad", .file [0xff])]
    nodup := by decide +kernel }
  root := place "/w/d"
  content := "\nA\n!mid\n"

theorem patchy_readFrom : patchy.ReadFrom (.ofString "d") none :=
  FoundAt.readFrom ⟨by decide +kernel, by decide +kernel⟩ (by decide +kernel)

theorem blanked_foundAt : blanked.FoundAt (.ofString "d") none := ⟨by decide +kernel, by decide +kernel⟩

theorem patchy_blanking : Blanking patchy blanked where
  settings := rfl
  root := rfl
  layout := ⟨rfl, by decide +kernel⟩
  readable := by decide +kernel
  lines := by decide +kernel

theorem patchy_broken_imports_exact :
    patchy.FoundAt (.ofString "d") none ∧ blanked.FoundAt (.ofString "d") none ∧
      Blanking patchy blanked ∧
      ∃ st, Document.stream patchy.settings patchy.tree (.ofString "d") none = .ok st ∧
        (∃ i ∈ st.issues, i.kind = .missingImport ∧ i.anchor = (.ofLocation (place "/w/m/mid"), 2)) ∧
        (∃ i ∈ st.issues, i.kind = .missingImport ∧ i.anchor = (.ofLocation (place "/w/m/mid"), 3)) ∧
        Stream.directives <$> Document.stream blanked.settings blanked.tree (.ofString "d") none =
          .ok st.directives := by
  obtain ⟨hends, hexact, hblank⟩ := broken_imports_exact patchy_readFrom.toFoundAt
  obtain ⟨st, hst⟩ := hends.2 patchy_readFrom.searched
  have hds := hblank _ _ patchy_blanking blanked_foundAt
  rw [hst] at hds
  obtain ⟨hanchors, _⟩ := hexact st hst
  have hmid : patchy.Reaches (place "/w/m/mid") := .single ⟨"!mid", 3, by decide +kernel⟩
  have hreport : ∀ raw n, (raw, n) ∈ patchy.lines (place "/w/m/mid") → patchy.Broken raw →
      ∃ i ∈ st.issues, i.kind = .missingImport ∧
        i.anchor = (.ofLocation (place "/w/m/mid"), (n : Int)) := by
    intro raw n hl hb
    exact (Set.ext_iff.1 hanchors _).2 ⟨_, raw, n, hmid, hl, hb, rfl⟩
  refine ⟨patchy_readFrom.toFoundAt, blanked_foundAt, patchy_blanking, st, hst, ?_, ?_, hds⟩
  · exact hreport "!lost" 2 (by decide +kernel) (by decide +kernel)
  · exact hreport "!bad" 3 (by decide +kernel) (by decide +kernel)

/-- More letters than the name of a file may have. -/
@[irreducible]
def letters : List Char := List.replicate 300 'a'

theorem eq_of_mem_letters {c : Char} (hc : c ∈ letters) : c = 'a' := by
  unfold letters at hc
  exact List.eq_of_mem_replicate hc

theorem trim_letters {cs : List Char} (hcs : cs = letters ∨ cs = '!' :: letters) :
    Text.trim (String.ofList cs) = String.ofList cs := by
  have hends : ∀ c ∈ cs, c = '!' ∨ c = 'a' := by
    rcases hcs with rfl | rfl
    · exact fun c hc => .inr (eq_of_mem_letters hc)
    · exact fun c hc => (List.mem_cons.1 hc).imp_right eq_of_mem_letters
  have hblank : ∀ c ∈ cs, ¬Text.isBlank c := fun c hc => by
    rcases hends c hc with rfl | rfl <;> decide
  rw [Text.trim, String.toList_ofList, Text.trimChars_eq_self]
  · exact fun c hc => hblank c (List.mem_of_mem_head? hc)
  · exact fun c hc => hblank c (List.mem_of_mem_getLast? hc)

/-- The second line names a file as no file can be named. -/
def stretched : Hierarchy where
  settings := ⟨.ofString "/w", .ofString "/w/m", "x", .inclusion⟩
  tree := {
    here := place "/w"
    entries := [(place "/w", .directory), (place "/w/m", .directory), (place "/w/d", .file [])]
    nodup := by decide +kernel }
  root := place "/w/d"
  content := "A=1" ++ "\n" ++ String.ofList ('!' :: letters)

theorem stretched_line : (String.ofList ('!' :: letters), 2) ∈ stretched.lines stretched.root := by
  have hfirst : '\n' ∉ "A=1".toList := by decide
  have hsecond : '\n' ∉ (String.ofList ('!' :: letters)).toList := by
    rw [String.toList_ofList, List.mem_cons]
    exact fun hm => hm.elim (by decide) fun hm => absurd (eq_of_mem_letters hm) (by decide)
  rw [lines_root, stretched, Text.lines_append_newline, Text.lines_of_notMem hfirst,
    Text.lines_of_notMem hsecond]
  exact List.mem_cons_of_mem _ List.mem_cons_self

theorem nameOfLine_letters :
    Import.nameOfLine (Text.trim (String.ofList ('!' :: letters))) = String.ofList letters := by
  rw [trim_letters (.inr rfl), Import.nameOfLine, String.toList_ofList, List.drop_one, List.tail_cons,
    trim_letters (.inl rfl)]

def longName : Name where
  text := String.ofList letters ++ ".x"
  isName := by
    have hdot : '.' ∈ (String.ofList letters ++ ".x").toList := by
      rw [String.toList_append]
      exact List.mem_append_right _ (by decide)
    have hx : 'x' ∈ (String.ofList letters ++ ".x").toList := by
      rw [String.toList_append]
      exact List.mem_append_right _ (by decide)
    refine ⟨fun he => ?_, fun he => ?_, fun hm => ?_⟩
    · exact absurd (he ▸ hdot) (by decide)
    · exact absurd (he ▸ hx) (by decide)
    · rw [String.toList_append, String.toList_ofList, List.mem_append] at hm
      exact hm.elim (fun hm => absurd (eq_of_mem_letters hm) (by decide)) (by decide)

theorem longName_fits : longName.fits = false := by
  have hletters : (String.ofList letters).utf8ByteSize = 300 := by decide +kernel
  rw [Name.fits, decide_eq_false_iff_not, longName, String.utf8ByteSize_append, hletters, Name.mostBytes]
  omega

theorem join_longName_hasNul : ¬(stretched.settings.importsDir.join ⟨.here, [longName]⟩).hasNul := by
  have hdir : ¬stretched.settings.importsDir.hasNul := by decide +kernel
  have hname : '\x00' ∉ longName.text.toList := by
    rw [longName, String.toList_append, String.toList_ofList, List.mem_append]
    exact fun hm => hm.elim (fun hm => absurd (eq_of_mem_letters hm) (by decide)) (by decide)
  simp only [Path.hasNul, List.any_eq_true, decide_eq_true_eq] at hdir ⊢
  rintro ⟨n, hn, hnul⟩
  rcases List.mem_append.1 hn with hn | hn
  · exact hdir ⟨n, hn, hnul⟩
  · exact hname (List.mem_singleton.1 hn ▸ hnul)

theorem stretched_overlong : stretched.Overlong (String.ofList ('!' :: letters)) := by
  have hdir : stretched.tree.node? stretched.settings.importsDir = .ok .directory := by decide +kernel
  have hne : Text.trim (String.ofList letters) ≠ "" := by
    rw [trim_letters (.inl rfl)]
    decide +kernel
  have hname : longName.text = s!"{Text.trim (String.ofList letters)}.{stretched.settings.extension}" := by
    rw [trim_letters (.inl rfl)]
    change String.ofList letters ++ ".x" = String.ofList letters ++ "." ++ "x"
    rw [String.append_assoc, show "." ++ "x" = ".x" by decide]
  refine ⟨?_, .tooLong (stretched.settings.importsDir.join ⟨.here, [longName]⟩), ?_⟩
  · rw [Line.IsImport, trim_letters (.inr rfl), String.toList_ofList, List.head?_cons]
  · rw [nameOfLine_letters]
    exact Import.locate_of_long hdir hne hname longName_fits join_longName_hasNul

/-- Where a name is too long to be looked up, its import is not reported, and there is no stream at all. -/
theorem stretched_not_reported :
    stretched.FoundAt (.ofString "d") (some stretched.content) ∧
      (∃ raw, (raw, 2) ∈ stretched.lines stretched.root ∧ Line.IsImport raw ∧
        ∀ file, Import.locate stretched.settings stretched.tree (Import.nameOfLine (Text.trim raw)) ≠
          .ok (some file)) ∧
      ∀ st, Document.stream stretched.settings stretched.tree (.ofString "d") (some stretched.content) ≠
        .ok st := by
  have hfound : stretched.FoundAt (.ofString "d") (some stretched.content) :=
    foundAt_of_canonical (by decide +kernel)
  obtain ⟨himport, e, hlocate⟩ := stretched_overlong
  refine ⟨hfound, ⟨_, stretched_line, himport, fun file => ?_⟩, fun st hst => ?_⟩
  · rw [hlocate]
    exact nofun
  · rw [hfound.stream] at hst
    exact (settle_eq_ok_iff.1 hst).1 _ .refl _ stretched_line stretched_overlong

end LayeredConfig.Hierarchy
