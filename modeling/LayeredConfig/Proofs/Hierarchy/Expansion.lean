import LayeredConfig.Proofs.Hierarchy

namespace LayeredConfig

namespace Stream

variable {s : Settings} {t : FileTree} {importers : List Location} {file : Location} {raw : String}
  {n : Nat}

theorem readLine_congr {raw' : String} (h : Text.trim raw = Text.trim raw') (n : Nat) :
    readLine s t importers file raw n = readLine s t importers file raw' n := by
  simp only [readLine, h]

theorem readLine_of_blank (h : Text.trim raw = "") : readLine s t importers file raw n = .items [] := by
  simp [readLine, h]

theorem readLine_of_isContent (h : Line.IsContent raw) :
    readLine s t importers file raw n =
      .items [.directive (Line.directive s.commentPolicy file raw n importers.length)] := by
  simp only [readLine, if_neg h.1, h.ofText]

theorem readLine_of_isImport (h : Line.IsImport raw) :
    readLine s t importers file raw n =
      match Import.open? s t (importers ++ [file]) (Import.nameOfLine (Text.trim raw)) with
      | .ok (target, content) => .file target content
      | .error obstruction => .items [obstruction.item s file n (Text.trim raw)] := by
  cases ho : Import.open? s t (importers ++ [file]) (Import.nameOfLine (Text.trim raw)) with
  | ok found =>
      obtain ⟨target, content⟩ := found
      simp only [readLine, if_neg h.trim_ne_empty, h.ofText, ho]
  | error obstruction => simp only [readLine, if_neg h.trim_ne_empty, h.ofText, ho]

def expandLine (s : Settings) (t : FileTree) (importers : List Location) (file : Location) (raw : String)
    (n : Nat) : List Item :=
  match readLine s t importers file raw n with
  | .items items => items
  | .file target content => expand s t (importers ++ [file]) target (Text.lines content)

theorem expand_eq_flatMap (lines : List String) :
    expand s t importers file lines =
      (lines.zipIdx 1).flatMap fun line => expandLine s t importers file line.1 line.2 := by
  rw [expand]
  congr 1
  funext line
  dsimp only [expandLine]
  split <;> simp_all

theorem readLine_eq_file_iff {target : Location} {content : String} :
    readLine s t importers file raw n = .file target content ↔
      Line.IsImport raw ∧ Import.locate s t (Import.nameOfLine (Text.trim raw)) = .ok (some target) ∧
        Import.readDocument t target = .ok content ∧ target ∉ importers ++ [file] := by
  rw [← Import.open?_eq_ok_iff]
  by_cases hb : Text.trim raw = ""
  · simp [readLine_of_blank hb, Line.IsImport, hb]
  · rcases Line.isContent_or_isImport hb with hc | hi
    · simp [readLine_of_isContent hc, hc.2]
    · rw [readLine_of_isImport hi]
      split <;> simp_all

theorem directive_mem_readLine_iff {d : Directive} :
    (∃ items, readLine s t importers file raw n = .items items ∧ .directive d ∈ items) ↔
      Line.IsContent raw ∧ d = Line.directive s.commentPolicy file raw n importers.length := by
  by_cases hb : Text.trim raw = ""
  · simp [readLine_of_blank hb, Line.IsContent, hb]
  · rcases Line.isContent_or_isImport hb with hc | hi
    · simp [readLine_of_isContent hc, hc]
    · have hc : ¬Line.IsContent raw := fun hc => hc.2 hi
      rw [readLine_of_isImport hi]
      split
      · simp [hc]
      · rename_i obstruction _
        cases obstruction <;> simp [hc, Obstruction.item]

theorem issue_mem_readLine_iff {i : Issue} :
    (∃ items, readLine s t importers file raw n = .items items ∧ .issue i ∈ items) ↔
      Line.IsImport raw ∧ ∃ problem,
        Import.open? s t (importers ++ [file]) (Import.nameOfLine (Text.trim raw)) =
          .error (.problem problem) ∧
        i = problem.issue s file n (Text.trim raw) := by
  by_cases hb : Text.trim raw = ""
  · simp [readLine_of_blank hb, Line.IsImport, hb]
  · rcases Line.isContent_or_isImport hb with hc | hi
    · simp [readLine_of_isContent hc, hc.2]
    · rw [readLine_of_isImport hi]
      split
      · simp_all
      · rename_i obstruction ho
        cases obstruction <;> simp [hi, ho, Obstruction.item]

theorem open?_eq_failure_iff {active : List Location} {name : String} {e : PathError} :
    Import.open? s t active name = .error (.failure e) ↔ Import.locate s t name = .error e := by
  unfold Import.open?
  split
  · simp_all
  · simp_all
  · split
    · simp_all
    · split <;> simp_all

theorem failure_mem_readLine_iff {e : PathError} :
    (∃ items, readLine s t importers file raw n = .items items ∧ .failure e ∈ items) ↔
      Line.IsImport raw ∧ Import.locate s t (Import.nameOfLine (Text.trim raw)) = .error e := by
  have hopen := @open?_eq_failure_iff s t (importers ++ [file]) (Import.nameOfLine (Text.trim raw)) e
  rw [← hopen]
  by_cases hb : Text.trim raw = ""
  · simp [readLine_of_blank hb, Line.IsImport, hb]
  · rcases Line.isContent_or_isImport hb with hc | hi
    · simp [readLine_of_isContent hc, hc.2]
    · rw [readLine_of_isImport hi]
      split
      · simp_all
      · rename_i obstruction ho
        cases obstruction <;> simp [hi, ho, Obstruction.item, eq_comm]

end Stream

structure Visit where
  importers : List Location
  file : Location
  content : String

namespace Visit

variable (s : Settings) (t : FileTree)

/-- The files that are being read, the one at hand last. -/
def active (v : Visit) : List Location := v.importers ++ [v.file]

def lines (v : Visit) : List (String × Nat) := (Text.lines v.content).zipIdx 1

def items (v : Visit) : List Item := Stream.expand s t v.importers v.file (Text.lines v.content)

def reading (v : Visit) (line : String × Nat) : Stream.Reading :=
  Stream.readLine s t v.importers v.file line.1 line.2

/-- A line of `v` opens the file of `w`. -/
def Opens (v w : Visit) : Prop :=
  w.importers = v.active ∧ ∃ line ∈ v.lines, v.reading s t line = .file w.file w.content

def Has (v : Visit) (x : Item) : Prop :=
  ∃ line ∈ v.lines, ∃ items, v.reading s t line = .items items ∧ x ∈ items

variable {s t} {v w : Visit} {x : Item}

theorem Opens.unentered_lt (h : Opens s t v w) :
    Stream.unentered t w.active < Stream.unentered t v.active := by
  obtain ⟨hw, line, _, hr⟩ := h
  obtain ⟨hfile, hnew⟩ := Stream.mem_files_of_readLine s t hr
  rw [active, hw]
  exact Stream.unentered_lt t hfile hnew

theorem mem_items_step : x ∈ v.items s t ↔ v.Has s t x ∨ ∃ w, Opens s t v w ∧ x ∈ w.items s t := by
  rw [items, Stream.expand_eq_flatMap, List.mem_flatMap]
  constructor
  · rintro ⟨line, hl, hx⟩
    cases hr : v.reading s t line with
    | items items => exact .inl ⟨line, hl, items, hr, by rwa [Stream.expandLine, ← reading, hr] at hx⟩
    | file target content =>
        rw [Stream.expandLine, ← reading, hr] at hx
        exact .inr ⟨⟨v.active, target, content⟩, ⟨rfl, line, hl, hr⟩, hx⟩
  · rintro (⟨line, hl, items, hr, hx⟩ | ⟨w, ⟨hw, line, hl, hr⟩, hx⟩)
    · refine ⟨line, hl, ?_⟩
      rw [Stream.expandLine, ← reading, hr]
      exact hx
    · refine ⟨line, hl, ?_⟩
      rw [Stream.expandLine, ← reading, hr]
      rw [items, hw] at hx
      exact hx

theorem mem_items_iff :
    x ∈ v.items s t ↔ ∃ w, Relation.ReflTransGen (Opens s t) v w ∧ w.Has s t x := by
  constructor
  · intro hx
    induction hn : Stream.unentered t v.active using Nat.strong_induction_on generalizing v with
    | _ n ih =>
        rcases mem_items_step.1 hx with hv | ⟨w, hw, hx⟩
        · exact ⟨v, .refl, hv⟩
        · obtain ⟨u, hu, hx⟩ := ih _ (hn ▸ hw.unentered_lt) hx rfl
          exact ⟨u, .head hw hu, hx⟩
  · rintro ⟨w, hw, hx⟩
    induction hw using Relation.ReflTransGen.head_induction_on with
    | refl => exact mem_items_step.2 (.inl hx)
    | head h _ ih => exact mem_items_step.2 (.inr ⟨_, h, ih⟩)

end Visit

namespace Hierarchy

variable (h : Hierarchy)

def start : Visit := ⟨[], h.root, h.content⟩

def Visits (v : Visit) : Prop := Relation.ReflTransGen (Visit.Opens h.settings h.tree) h.start v

variable {h}

theorem text?_of_notMem {p : List Location} {file : Location} (hp : h.IsPath p) (hf : file ∉ p) :
    h.text? file = (Import.readDocument h.tree file).toOption := by
  have hne : file ≠ h.root := fun he => hf (he ▸ hp.root_mem)
  exact if_neg hne

theorem Visits.isPath {v : Visit} (hv : h.Visits v) :
    h.IsPath v.active ∧ h.text? v.file = some v.content := by
  induction hv with
  | refl => exact ⟨isPath_singleton_iff.2 rfl, if_pos rfl⟩
  | @tail v w _ ho ih =>
      obtain ⟨hp, ht⟩ := ih
      obtain ⟨hw, ⟨raw, n⟩, hl, hr⟩ := ho
      obtain ⟨hi, hlocate, hread, hnew⟩ := Stream.readLine_eq_file_iff.1 hr
      have he : h.Edge v.file w.file :=
        ⟨raw, n, mem_lines_iff.2 ⟨_, ht, hl⟩, hi, hlocate, _, hread⟩
      constructor
      · rw [Visit.active, hw]
        exact isPath_append_singleton_iff.2 ⟨hp, he, hnew⟩
      · rw [text?_of_notMem hp hnew, hread]
        rfl

theorem IsPath.visits {importers : List Location} {file : Location} {content : String}
    (hp : h.IsPath (importers ++ [file])) (ht : h.text? file = some content) :
    h.Visits ⟨importers, file, content⟩ := by
  induction importers using List.reverseRecOn generalizing file content with
  | nil =>
      obtain rfl := isPath_singleton_iff.1 hp
      rw [text?, if_pos rfl] at ht
      cases ht
      exact .refl
  | append_singleton importers u ih =>
      obtain ⟨hp, ⟨raw, n, hl, hi, hlocate, text, hread⟩, hnew⟩ := isPath_append_singleton_iff.1 hp
      obtain ⟨textu, htu, hm⟩ := mem_lines_iff.1 hl
      rw [text?_of_notMem hp hnew, hread] at ht
      cases ht
      exact (ih hp htu).tail
        ⟨rfl, (raw, n), hm, Stream.readLine_eq_file_iff.2 ⟨hi, hlocate, hread, hnew⟩⟩

/-- A file is visited once for every simple path that leads to it. -/
theorem visits_iff {v : Visit} :
    h.Visits v ↔ h.IsPath v.active ∧ h.text? v.file = some v.content :=
  ⟨Visits.isPath, fun hv => hv.1.visits hv.2⟩

theorem mem_items_iff {x : Item} :
    x ∈ h.start.items h.settings h.tree ↔ ∃ importers file raw n, h.IsPath (importers ++ [file]) ∧
      (raw, n) ∈ h.lines file ∧
      ∃ items, Stream.readLine h.settings h.tree importers file raw n = .items items ∧ x ∈ items := by
  rw [Visit.mem_items_iff]
  constructor
  · rintro ⟨⟨importers, file, content⟩, hv, ⟨raw, n⟩, hl, hx⟩
    obtain ⟨hp, ht⟩ := Visits.isPath hv
    exact ⟨importers, file, raw, n, hp, mem_lines_iff.2 ⟨content, ht, hl⟩, hx⟩
  · rintro ⟨importers, file, raw, n, hp, hl, hx⟩
    obtain ⟨content, ht, hm⟩ := mem_lines_iff.1 hl
    exact ⟨⟨importers, file, content⟩, hp.visits ht, (raw, n), hm, hx⟩

theorem mem_stream_directives_iff {d : Directive} :
    d ∈ h.stream.directives ↔ ∃ importers file raw n, h.IsPath (importers ++ [file]) ∧
      (raw, n) ∈ h.lines file ∧ Line.IsContent raw ∧
      d = Line.directive h.settings.commentPolicy file raw n importers.length := by
  have hd : d ∈ h.stream.directives ↔ .directive d ∈ h.start.items h.settings h.tree := by
    simp only [stream, Stream.ofText, Stream.ofItems, List.mem_filterMap]
    constructor
    · rintro ⟨x, hx, he⟩
      cases x with
      | directive e => exact Option.some.inj he ▸ hx
      | issue | failure => cases he
    · exact fun hx => ⟨_, hx, rfl⟩
  rw [hd, mem_items_iff]
  simp only [Stream.directive_mem_readLine_iff]

theorem mem_stream_issues_iff {i : Issue} :
    i ∈ h.stream.issues ↔ ∃ importers file raw n, h.IsPath (importers ++ [file]) ∧
      (raw, n) ∈ h.lines file ∧ Line.IsImport raw ∧ ∃ problem,
        Import.open? h.settings h.tree (importers ++ [file]) (Import.nameOfLine (Text.trim raw)) =
          .error (.problem problem) ∧
        i = problem.issue h.settings file n (Text.trim raw) := by
  have hi : i ∈ h.stream.issues ↔ .issue i ∈ h.start.items h.settings h.tree := by
    simp only [stream, Stream.ofText, Stream.ofItems, List.mem_filterMap]
    constructor
    · rintro ⟨x, hx, he⟩
      cases x with
      | directive | failure => cases he
      | issue j => exact Option.some.inj he ▸ hx
    · exact fun hx => ⟨_, hx, rfl⟩
  rw [hi, mem_items_iff]
  simp only [Stream.issue_mem_readLine_iff]

theorem failure_mem_items_iff {e : PathError} :
    .failure e ∈ h.start.items h.settings h.tree ↔ ∃ file raw n, h.Reaches file ∧ (raw, n) ∈ h.lines file ∧
      Line.IsImport raw ∧
      Import.locate h.settings h.tree (Import.nameOfLine (Text.trim raw)) = .error e := by
  rw [mem_items_iff]
  simp only [Stream.failure_mem_readLine_iff]
  constructor
  · rintro ⟨importers, file, raw, n, hp, hl, hi⟩
    exact ⟨file, raw, n, hp.reaches, hl, hi⟩
  · rintro ⟨file, raw, n, hfile, hl, hi⟩
    obtain ⟨importers, hp⟩ := hfile.exists_isPath
    exact ⟨importers, file, raw, n, hp, hl, hi⟩

theorem failure?_eq_none_iff : h.failure? = none ↔ h.Searched := by
  have hnone : h.failure? = none ↔ ∀ e, .failure e ∉ h.start.items h.settings h.tree := by
    change List.findSome? Item.failure? (h.start.items h.settings h.tree) = none ↔ _
    rw [List.findSome?_eq_none_iff]
    constructor
    · exact fun hall e hm => Option.some_ne_none e (hall _ hm)
    · intro hall x hx
      cases x with
      | directive | issue => rfl
      | failure e => exact absurd hx (hall e)
  simp only [hnone, failure_mem_items_iff]
  constructor
  · rintro hall file hfile ⟨raw, n⟩ hl ⟨hi, e, hlocate⟩
    exact hall e ⟨file, raw, n, hfile, hl, hi, hlocate⟩
  · rintro hs e ⟨file, raw, n, hfile, hl, hi, hlocate⟩
    exact hs file hfile (raw, n) hl ⟨hi, e, hlocate⟩

theorem exists_of_failure? {e : PathError} (he : h.failure? = some e) :
    ∃ file raw n, h.Reaches file ∧ (raw, n) ∈ h.lines file ∧ Line.IsImport raw ∧
      Import.locate h.settings h.tree (Import.nameOfLine (Text.trim raw)) = .error e := by
  obtain ⟨x, hx, he⟩ := List.exists_of_findSome?_eq_some he
  cases x with
  | directive | issue => cases he
  | failure e' =>
      cases he
      exact failure_mem_items_iff.1 hx

theorem Searched.settle {α : Type} (hs : h.Searched) (a : α) : h.settle a = .ok a := by
  rw [Hierarchy.settle, failure?_eq_none_iff.2 hs, Option.elim_none]

theorem settle_eq_ok_iff {α : Type} {a b : α} : h.settle a = .ok b ↔ h.Searched ∧ b = a := by
  rw [Hierarchy.settle, ← failure?_eq_none_iff]
  cases h.failure? <;> simp [eq_comm]

variable {path : Path} {given : Option String}

theorem ReadFrom.stream (hr : h.ReadFrom path given) :
    Document.stream h.settings h.tree path given = .ok h.stream := by
  rw [hr.toFoundAt.stream, hr.searched.settle]

theorem ReadFrom.directives (hr : h.ReadFrom path given) :
    Document.directives h.settings h.tree path given = .ok h.directives := by
  unfold Document.directives
  rw [hr.stream]
  rfl

theorem ReadFrom.config (hr : h.ReadFrom path given) :
    Document.config h.settings h.tree path given = .ok (Effective.config h.directives) := by
  unfold Document.config
  rw [hr.directives]
  rfl

end Hierarchy

end LayeredConfig
