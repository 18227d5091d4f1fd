import LayeredConfig.Proofs.CommandLine
import LayeredConfig.Proofs.CommandLine.Arguments

namespace LayeredConfig.CommandLine

namespace Output

@[simp]
theorem out_append (a b : Output) : (a ++ b).out = a.out ++ b.out := rfl

@[simp]
theorem err_append (a b : Output) : (a ++ b).err = a.err ++ b.err := rfl

theorem ext {a b : Output} (hout : a.out = b.out) (herr : a.err = b.err) : a = b := by
  cases a; cases b; cases hout; cases herr; rfl

@[simp]
theorem none_append (a : Output) : none ++ a = a := ext (by simp [none]) (by simp [none])

@[simp]
theorem append_none (a : Output) : a ++ none = a := ext (by simp [none]) (by simp [none])

theorem append_assoc (a b c : Output) : a ++ b ++ c = a ++ (b ++ c) :=
  ext String.append_assoc String.append_assoc

def concat (outputs : List Output) : Output :=
  ⟨String.join (outputs.map out), String.join (outputs.map err)⟩

@[simp]
theorem concat_nil : concat [] = none := rfl

theorem concat_cons (a : Output) (outputs : List Output) : concat (a :: outputs) = a ++ concat outputs :=
  ext (by simp [concat]) (by simp [concat])

end Output

/-- The document cannot be read, or it has an issue that is an error. -/
def Faulty (s : Settings) (t : FileTree) (path : Path) : Prop :=
  (∃ e, Document.issues s t path none = .error (.unreadable e)) ∨
    ∃ issues, Document.issues s t path none = .ok issues ∧ ∃ i ∈ issues, i.severity = .error

/-- The path leads to a place, and where a document is there, whatever it imports can be looked up. -/
def Resolvable (s : Settings) (t : FileTree) (path : Path) : Prop :=
  ∃ root, t.canonical path = .ok root ∧ ∀ content, Import.readDocument t root = .ok content →
    Hierarchy.Searched ⟨s, t, root, content⟩

variable {yaml : Yaml.Reader} {o : Options} {s : Settings} {t : FileTree} {path : Path} {paths : List Path}
  {e : PathError}

theorem resolvable_iff : Resolvable s t path ↔ ∀ e, Document.stream s t path none ≠ .error (.path e) := by
  unfold Resolvable
  cases hroot : t.canonical path with
  | error e => simp [Document.stream_of_canonical_error hroot]
  | ok root =>
      rw [Document.stream_of_canonical hroot, Document.text]
      cases hread : Import.readDocument t root with
      | error e => simp [hread, Except.mapError, bind, Except.bind]
      | ok content =>
          simp only [hread, Except.ok.injEq, exists_eq_left', forall_eq', Except.mapError, bind, Except.bind]
          rw [← Hierarchy.failure?_eq_none_iff, Hierarchy.settle]
          cases Hierarchy.failure? ⟨s, t, root, content⟩ <;> simp

instance : Decidable (Resolvable s t path) :=
  decidable_of_iff ((match Document.stream s t path none with
    | .error (.path _) => false
    | _ => true) = true) <| by
    rw [resolvable_iff]
    cases Document.stream s t path none with
    | ok st => simp
    | error e => cases e <;> simp

theorem log_of_quiet (h : o.verbose = false) (level : Level) (message : String) :
    log o.verbose level message = .none := by
  rw [h]
  rfl

theorem logItem_of_quiet (h : o.verbose = false) (s : Settings) (x : Item) : logItem o s x = .none := by
  cases x with
  | issue i => exact log_of_quiet h _ _
  | directive | failure => rfl

theorem logResolving_of_quiet (h : o.verbose = false) (s : Settings) (document : Location) (items : List Item) :
    logResolving o s document items = .none := by
  have hitems : ∀ items : List Item, (items.map (logItem o s)).foldl (· ++ ·) .none = .none := by
    intro items
    induction items with
    | nil => rfl
    | cons x items ih => rw [List.map_cons, List.foldl_cons, logItem_of_quiet h, Output.none_append, ih]
  rw [logResolving, log_of_quiet h, hitems, Output.none_append]

theorem resolve_of_error (hquiet : o.verbose = false) (h : Document.stream s t path none = .error (.path e)) :
    resolve o s t path = .failure e .none := by
  rw [← result_resolve o] at h
  cases hresolve : resolve o s t path with
  | failure e' output =>
      rw [hresolve] at h
      obtain rfl : e' = e := by
        cases h
        rfl
      have houtput : output = .none := by
        unfold resolve at hresolve
        split at hresolve
        · cases hresolve
          rfl
        · cases hresolve
        · split at hresolve <;> cases hresolve
          exact logResolving_of_quiet hquiet s _ _
      rw [houtput]
  | unreadable | stream =>
      rw [hresolve] at h
      cases h

theorem exists_resolve (o : Options) (h : Resolvable s t path) :
    ∃ failed output, (∀ paths, check o s t (path :: paths) = (check o s t paths).after failed output) ∧
      (failed ↔ Faulty s t path) := by
  have hresult := result_resolve o s t path
  have hissues : Document.issues s t path none =
      (fun st => Document.judge s.root st) <$> (resolve o s t path).result := by
    rw [hresult, Document.issues, map_eq_pure_bind]
  unfold Faulty
  cases hresolve : resolve o s t path with
  | failure e output =>
      rw [hresolve] at hresult
      exact absurd hresult.symm (resolvable_iff.1 h e)
  | unreadable e =>
      rw [hissues, hresolve]
      exact ⟨true, _, fun paths => by rw [check, hresolve], by simp [Resolved.result]⟩
  | stream stream output =>
      rw [hissues, hresolve]
      exact ⟨_, _, fun paths => by rw [check, hresolve], by simp [Resolved.result]⟩

theorem check_cons_of_error (hquiet : o.verbose = false) (h : Document.stream s t path none = .error (.path e))
    (paths : List Path) : check o s t (path :: paths) = ⟨.failure (.path e), .none⟩ := by
  rw [check, resolve_of_error hquiet h]

theorem output_check_cons (o : Options) (h : Resolvable s t path) (paths : List Path) :
    (check o s t (path :: paths)).output = (check o s t [path]).output ++ (check o s t paths).output := by
  obtain ⟨failed, output, hcheck, -⟩ := exists_resolve o h
  rw [hcheck, hcheck]
  simp only [Outcome.after, check, Output.append_none]

theorem output_check_append (o : Options) (h : ∀ p ∈ paths, Resolvable s t p) (rest : List Path) :
    (check o s t (paths ++ rest)).output =
      Output.concat (paths.map fun p => (check o s t [p]).output) ++ (check o s t rest).output := by
  induction paths with
  | nil => simp
  | cons path paths ih =>
      obtain ⟨hpath, hpaths⟩ := List.forall_mem_cons.1 h
      rw [List.cons_append, output_check_cons o hpath, ih hpaths, List.map_cons, Output.concat_cons,
        Output.append_assoc]

theorem output_check (o : Options) (h : ∀ p ∈ paths, Resolvable s t p) :
    (check o s t paths).output = Output.concat (paths.map fun p => (check o s t [p]).output) := by
  have hall := output_check_append o h []
  rwa [List.append_nil, check, Output.append_none] at hall

theorem ending_after {outcome : Outcome} {later : Bool} (h : outcome.ending = .status later.toNat) (failed : Bool)
    (output : Output) : (outcome.after failed output).ending = .status (failed || later).toNat := by
  simp only [Outcome.after, h]
  cases failed <;> rfl

theorem ending_check (o : Options) (h : ∀ p ∈ paths, Resolvable s t p) :
    ∃ failed : Bool, (check o s t paths).ending = .status failed.toNat ∧ (failed ↔ ∃ p ∈ paths, Faulty s t p) := by
  induction paths with
  | nil => exact ⟨false, rfl, by simp⟩
  | cons path paths ih =>
      obtain ⟨hpath, hpaths⟩ := List.forall_mem_cons.1 h
      obtain ⟨failed, output, hcheck, hfailed⟩ := exists_resolve o hpath
      obtain ⟨later, hlater, hfaulty⟩ := ih hpaths
      refine ⟨failed || later, ?_, ?_⟩
      · rw [hcheck, ending_after hlater]
      · rw [Bool.or_eq_true, hfailed, hfaulty, List.exists_mem_cons_iff]

theorem ending_check_eq_one_iff (h : ∀ p ∈ paths, Resolvable s t p) :
    (check o s t paths).ending = .status 1 ↔ ∃ p ∈ paths, Faulty s t p := by
  obtain ⟨failed, hending, hfaulty⟩ := ending_check o h
  rw [hending, ← hfaulty]
  cases failed <;> simp

theorem ending_check_eq_one_iff_exists (h : ∀ p ∈ paths, Resolvable s t p) :
    (check o s t paths).ending = .status 1 ↔ ∃ p ∈ paths, (check o s t [p]).ending = .status 1 := by
  have hsingle : ∀ p ∈ paths, (check o s t [p]).ending = .status 1 ↔ Faulty s t p := by
    intro p hp
    rw [ending_check_eq_one_iff (by simpa using h p hp), List.exists_mem_cons_iff]
    simp
  rw [ending_check_eq_one_iff h]
  exact exists_congr fun p => and_congr_right fun hp => (hsingle p hp).symm

theorem ending_check_eq_zero_iff (h : ∀ p ∈ paths, Resolvable s t p) :
    (check o s t paths).ending = .status 0 ↔ ∀ p ∈ paths, ¬Faulty s t p := by
  obtain ⟨failed, hending, hfaulty⟩ := ending_check o h
  have hnone : (¬failed) ↔ ∀ p ∈ paths, ¬Faulty s t p := by simp [hfaulty]
  rw [hending, ← hnone]
  cases failed <;> simp

theorem ending_check_of_error (hquiet : o.verbose = false) (h : ∀ p ∈ paths, Resolvable s t p)
    (he : Document.stream s t path none = .error (.path e)) (rest : List Path) :
    (check o s t (paths ++ path :: rest)).ending = .failure (.path e) := by
  induction paths with
  | nil => rw [List.nil_append, check_cons_of_error hquiet he]
  | cons p paths ih =>
      obtain ⟨hp, hpaths⟩ := List.forall_mem_cons.1 h
      obtain ⟨failed, output, hcheck, -⟩ := exists_resolve o hp
      rw [List.cons_append, hcheck]
      simp only [Outcome.after, ih hpaths]

theorem output_check_of_error (hquiet : o.verbose = false) (h : ∀ p ∈ paths, Resolvable s t p)
    (he : Document.stream s t path none = .error (.path e)) (rest : List Path) :
    (check o s t (paths ++ path :: rest)).output =
      Output.concat (paths.map fun p => (check o s t [p]).output) := by
  rw [output_check_append o h, check_cons_of_error hquiet he, Output.append_none]

theorem exists_status_iff (hquiet : o.verbose = false) :
    (∃ code, (check o s t paths).ending = .status code) ↔ ∀ p ∈ paths, Resolvable s t p := by
  constructor
  · induction paths with
    | nil => simp
    | cons path paths ih =>
        rintro ⟨code, hcode⟩
        have hpath : Resolvable s t path := by
          refine resolvable_iff.2 fun e he => ?_
          rw [check_cons_of_error hquiet he] at hcode
          cases hcode
        obtain ⟨failed, output, hcheck, -⟩ := exists_resolve o hpath
        rw [hcheck] at hcode
        refine List.forall_mem_cons.2 ⟨hpath, ih ?_⟩
        cases hending : (check o s t paths).ending with
        | status code => exact ⟨code, rfl⟩
        | help | misuse | failure => simp [Outcome.after, hending] at hcode
  · intro h
    obtain ⟨failed, hending, -⟩ := ending_check o h
    exact ⟨_, hending⟩

theorem logSettings_of_quiet (h : o.verbose = false) (t : FileTree) (root : Path) :
    logSettings o t root = .none := by
  unfold logSettings
  split
  · rfl
  · split
    · rfl
    · exact log_of_quiet h _ _

theorem run_fill (f : Frame o) (hquiet : o.verbose = false)
    (hload : Settings.load yaml t (o.root.getD (.ofLocation t.here)) o.settings = .ok s) {names : List String}
    (hnames : names ≠ []) (htakes : f.Takes names) :
    run yaml t (f.fill "check" names) = check o s t (names.map .ofString) := by
  have hcommand : Command.of? "check" names = some (.check (names.map .ofString)) := by
    cases names with
    | nil => exact absurd rfl hnames
    | cons name names => rfl
  rw [run, f.ofArgs_fill rfl htakes, hcommand]
  simp only [Option.elim_some, hload, logSettings_of_quiet hquiet, work, Outcome.after, Output.none_append]

theorem Frame.Takes.mono {f : Frame o} {names part : List String} (h : f.Takes names) (hsub : part ⊆ names) :
    f.Takes part := by
  cases f with
  | around => exact fun name hname => h name (hsub hname)
  | atEnd => trivial

/-- A run that checks several documents ends with a status just when all their names lead somewhere and all that
they import can be looked up. Then it writes what the runs for the single names write, and it fails just when one
of them does: when a document cannot be read or has an issue that is an error. In any other case the first name
for which this does not hold ends the run, and nothing is written for the names behind it. -/
theorem check_joins_checks (yaml : Yaml.Reader) (t : FileTree) (f : Frame o) (hquiet : o.verbose = false)
    (hload : Settings.load yaml t (o.root.getD (.ofLocation t.here)) o.settings = .ok s) {names : List String}
    (hnames : names ≠ []) (htakes : f.Takes names) :
    let joint := run yaml t (f.fill "check" names)
    let single := fun name => run yaml t (f.fill "check" [name])
    ((∃ code, joint.ending = .status code) ↔ ∀ name ∈ names, Resolvable s t (.ofString name)) ∧
    ((∀ name ∈ names, Resolvable s t (.ofString name)) →
      joint.output = Output.concat (names.map fun name => (single name).output) ∧
      (joint.ending = .status 1 ↔ ∃ name ∈ names, (single name).ending = .status 1) ∧
      (joint.ending = .status 1 ↔ ∃ name ∈ names, Faulty s t (.ofString name)) ∧
      (joint.ending = .status 0 ↔ ∀ name ∈ names, ¬Faulty s t (.ofString name))) ∧
    ∀ before name after e, names = before ++ name :: after → (∀ n ∈ before, Resolvable s t (.ofString n)) →
      Document.stream s t (.ofString name) none = .error (.path e) →
      joint.ending = .failure (.path e) ∧
      joint.output = Output.concat (before.map fun n => (single n).output) := by
  intro joint single
  have hjoint : joint = check o s t (names.map .ofString) := run_fill f hquiet hload hnames htakes
  have hsingle : ∀ name ∈ names, single name = check o s t [.ofString name] := fun name hname =>
    run_fill f hquiet hload (List.cons_ne_nil name []) (htakes.mono (by simpa using hname))
  have houtputs : ∀ part ⊆ names, (part.map fun name => (single name).output) =
      (part.map Path.ofString).map fun p => (check o s t [p]).output := by
    intro part hsub
    rw [List.map_map]
    exact List.map_congr_left fun name hname => congrArg Outcome.output (hsingle name (hsub hname))
  rw [hjoint]
  refine ⟨(exists_status_iff hquiet).trans List.forall_mem_map, ?_, ?_⟩
  · intro hresolvable
    have hall : ∀ p ∈ names.map Path.ofString, Resolvable s t p := List.forall_mem_map.2 hresolvable
    refine ⟨?_, ?_, ?_, ?_⟩
    · rw [output_check o hall, houtputs names (List.Subset.refl names)]
    · simp only [ending_check_eq_one_iff_exists hall, List.mem_map, exists_exists_and_eq_and]
      exact exists_congr fun name => and_congr_right fun hname => by rw [hsingle name hname]
    · simp only [ending_check_eq_one_iff hall, List.mem_map, exists_exists_and_eq_and]
    · rw [ending_check_eq_zero_iff hall, List.forall_mem_map]
  · rintro before name after e rfl hbefore he
    have hall : ∀ p ∈ before.map Path.ofString, Resolvable s t p := List.forall_mem_map.2 hbefore
    rw [List.map_append, List.map_cons, houtputs before (List.subset_append_left _ _)]
    exact ⟨ending_check_of_error hquiet hall he _, output_check_of_error hquiet hall he _⟩

/-- The document `circle` imports itself, `warned` imports what is not there, and `loop` is a link to itself. -/
def littered : FileTree where
  here := Hierarchy.place "/work"
  entries := [(Hierarchy.place "/work", .directory), (Hierarchy.place "/work/metaconfig", .directory),
    (Hierarchy.place "/work/metaconfig/circle", .file "!circle".toUTF8.toList),
    (Hierarchy.place "/work/warned", .file "!lost".toUTF8.toList),
    (Hierarchy.place "/work/loop", .link (.ofString "loop"))]
  nodup := by decide +kernel

def standard : Settings := ⟨.ofString "/work", .ofString "/work/metaconfig", "metaconfig", .inclusion⟩

theorem littered_load :
    Settings.load Yaml.wordReader littered (.ofString "/work") .usual = .ok standard := by
  decide +kernel

/-- What is wrong with `circle` is written although `lost` cannot be read. -/
theorem littered_check_joins_checks :
    let o := Options.none.set .root "/work"
    let f : Frame o := .around ["--root=/work"] [] [] (.attached (by decide +kernel) .nil) .nil .nil
    let names := ["lost", "warned", "metaconfig/circle"]
    (o.verbose = false ∧ Settings.load Yaml.wordReader littered (.ofString "/work") o.settings = .ok standard ∧
      names ≠ [] ∧ f.Takes names ∧ ∀ name ∈ names, Resolvable standard littered (.ofString name)) ∧
      (run Yaml.wordReader littered (f.fill "check" names)).output =
        ⟨"warned:1: warning: Imported file \x27lost\x27 not found in metaconfig.\n" ++
            "metaconfig/circle:1: error: Cyclic import: metaconfig/circle -> metaconfig/circle.\n",
          "lost: error: Failed to read metaconfig file /work/lost: " ++
            "[Errno 2] No such file or directory: \x27/work/lost\x27\n"⟩ ∧
      (run Yaml.wordReader littered (f.fill "check" names)).ending = .status 1 := by
  intro o f names
  have hnames : names ≠ [] := by decide
  have htakes : f.Takes names := by
    unfold Frame.Takes IsPlain
    decide +kernel
  have hresolvable : ∀ name ∈ names, Resolvable standard littered (.ofString name) := by decide +kernel
  obtain ⟨-, hall, -⟩ := check_joins_checks Yaml.wordReader littered f rfl littered_load hnames htakes
  obtain ⟨houtput, hstatus, -⟩ := hall hresolvable
  have hlost : (run Yaml.wordReader littered (f.fill "check" ["lost"])).ending = .status 1 := by decide +kernel
  refine ⟨⟨rfl, littered_load, hnames, htakes, hresolvable⟩, ?_, hstatus.2 ⟨"lost", by decide, hlost⟩⟩
  rw [houtput]
  decide +kernel

/-- The path of `loop` leads nowhere, and so nothing is said about `circle`. -/
theorem littered_check_hides :
    let run := run Yaml.wordReader littered
    (run ["check", "loop", "metaconfig/circle"]).ending ≠ .status 1 ∧
      (run ["check", "metaconfig/circle"]).ending = .status 1 ∧
      (run ["check", "loop", "metaconfig/circle"]).output.out ≠
        (run ["check", "loop"]).output.out ++ (run ["check", "metaconfig/circle"]).output.out := by
  decide +kernel

end LayeredConfig.CommandLine
