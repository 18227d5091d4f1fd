import Mathlib.Data.List.Nodup
import LayeredConfig.Proofs.Hierarchy.Expansion

namespace LayeredConfig

namespace Stream

variable (s : Settings) (t : FileTree)

/-- The items of a file, each with the line that it stands for and the import lines that lead there. -/
def trace (steps : List (Location × Nat)) (file : Location) (lines : List String) :
    List (List (Location × Nat) × Item) :=
  (lines.zipIdx 1).flatMap fun (raw, line) =>
    match _h : readLine s t (steps.map Prod.fst) file raw line with
    | .items items => items.map fun x => (steps ++ [(file, line)], x)
    | .file target content => trace (steps ++ [(file, line)]) target (Text.lines content)
termination_by unentered t (steps.map Prod.fst ++ [file])
decreasing_by
  have := mem_files_of_readLine s t _h
  rw [List.map_append, List.map_singleton]
  exact unentered_lt t this.1 this.2

def traceLine (steps : List (Location × Nat)) (file : Location) (raw : String) (line : Nat) :
    List (List (Location × Nat) × Item) :=
  match readLine s t (steps.map Prod.fst) file raw line with
  | .items items => items.map fun x => (steps ++ [(file, line)], x)
  | .file target content => trace s t (steps ++ [(file, line)]) target (Text.lines content)

variable {s t} {steps : List (Location × Nat)} {file : Location} {raw : String} {n : Nat}
  {p : List (Location × Nat) × Item}

theorem trace_eq_flatMap (lines : List String) :
    trace s t steps file lines =
      (lines.zipIdx 1).flatMap fun line => traceLine s t steps file line.1 line.2 := by
  rw [trace]
  congr 1
  funext line
  dsimp only [traceLine]
  split <;> simp_all

theorem traceLine_of_items {items : List Item}
    (hr : readLine s t (steps.map Prod.fst) file raw n = .items items) :
    traceLine s t steps file raw n = items.map fun x => (steps ++ [(file, n)], x) := by
  rw [traceLine, hr]

theorem traceLine_of_file {target : Location} {content : String}
    (hr : readLine s t (steps.map Prod.fst) file raw n = .file target content) :
    traceLine s t steps file raw n = trace s t (steps ++ [(file, n)]) target (Text.lines content) := by
  rw [traceLine, hr]

theorem entering_induction {motive : List (Location × Nat) → Location → List String → Prop}
    (step : ∀ steps file lines, (∀ raw n target content,
      readLine s t (steps.map Prod.fst) file raw n = .file target content →
        motive (steps ++ [(file, n)]) target (Text.lines content)) → motive steps file lines)
    (steps : List (Location × Nat)) (file : Location) (lines : List String) : motive steps file lines := by
  induction hn : unentered t (steps.map Prod.fst ++ [file]) using Nat.strong_induction_on
    generalizing steps file lines with
  | _ k ih =>
      refine step steps file lines fun raw n target content hr => ih _ ?_ _ _ _ rfl
      obtain ⟨hfile, hnew⟩ := mem_files_of_readLine s t hr
      rw [← hn, List.map_append, List.map_singleton]
      exact unentered_lt t hfile hnew

theorem map_snd_trace (lines : List String) :
    (trace s t steps file lines).map Prod.snd = expand s t (steps.map Prod.fst) file lines := by
  induction steps, file, lines using entering_induction (s := s) (t := t) with
  | step steps file lines ih =>
      rw [trace_eq_flatMap, expand_eq_flatMap, List.map_flatMap]
      congr 1
      funext ⟨raw, n⟩
      cases hr : readLine s t (steps.map Prod.fst) file raw n with
      | items items =>
          rw [traceLine_of_items hr, expandLine, hr, List.map_map]
          exact List.map_id items
      | file target content =>
          rw [traceLine_of_file hr, expandLine, hr, ih raw n target content hr, List.map_append,
            List.map_singleton]

theorem trace_starts {lines : List String} (hp : p ∈ trace s t steps file lines) :
    ∃ rest, p.1 = steps ++ rest := by
  induction steps, file, lines using entering_induction (s := s) (t := t) with
  | step steps file lines ih =>
      rw [trace_eq_flatMap, List.mem_flatMap] at hp
      obtain ⟨⟨raw, n⟩, _, hp⟩ := hp
      cases hr : readLine s t (steps.map Prod.fst) file raw n with
      | items items =>
          rw [traceLine_of_items hr] at hp
          obtain ⟨x, _, rfl⟩ := List.mem_map.1 hp
          exact ⟨_, rfl⟩
      | file target content =>
          rw [traceLine_of_file hr] at hp
          obtain ⟨rest, hrest⟩ := ih raw n target content hr hp
          exact ⟨_, hrest.trans (List.append_assoc steps _ rest)⟩

theorem traceLine_starts (hp : p ∈ traceLine s t steps file raw n) :
    ∃ rest, p.1 = steps ++ (file, n) :: rest := by
  cases hr : readLine s t (steps.map Prod.fst) file raw n with
  | items items =>
      rw [traceLine_of_items hr] at hp
      obtain ⟨x, _, rfl⟩ := List.mem_map.1 hp
      exact ⟨[], rfl⟩
  | file target content =>
      rw [traceLine_of_file hr] at hp
      obtain ⟨rest, hrest⟩ := trace_starts hp
      exact ⟨rest, by rw [hrest, List.append_assoc, List.singleton_append]⟩

theorem items_eq_of_readLine {importers : List Location} {items : List Item}
    (hr : readLine s t importers file raw n = .items items) : items = [] ∨ ∃ x, items = [x] := by
  by_cases hb : Text.trim raw = ""
  · rw [readLine_of_blank hb] at hr
    cases hr
    exact .inl rfl
  · rcases Line.isContent_or_isImport hb with hc | hi
    · rw [readLine_of_isContent hc] at hr
      cases hr
      exact .inr ⟨_, rfl⟩
    · rw [readLine_of_isImport hi] at hr
      split at hr <;> cases hr
      exact .inr ⟨_, rfl⟩

theorem nodup_trace (lines : List String) : ((trace s t steps file lines).map Prod.fst).Nodup := by
  induction steps, file, lines using entering_induction (s := s) (t := t) with
  | step steps file lines ih =>
      rw [trace_eq_flatMap, List.map_flatMap, List.nodup_flatMap]
      constructor
      · rintro ⟨raw, n⟩ _
        cases hr : readLine s t (steps.map Prod.fst) file raw n with
        | items items =>
            rw [traceLine_of_items hr]
            rcases items_eq_of_readLine hr with rfl | ⟨x, rfl⟩
            · exact List.nodup_nil
            · exact List.nodup_singleton _
        | file target content =>
            rw [traceLine_of_file hr]
            exact ih raw n target content hr
      · refine (Text.zipIdx_pairwise lines 1).imp ?_
        rintro ⟨raw, n⟩ ⟨raw', n'⟩ hlt
        rw [Function.onFun_apply, List.disjoint_left]
        intro steps' hs hs'
        obtain ⟨p, hp, rfl⟩ := List.mem_map.1 hs
        obtain ⟨p', hp', hpp⟩ := List.mem_map.1 hs'
        obtain ⟨rest, hrest⟩ := traceLine_starts hp
        obtain ⟨rest', hrest'⟩ := traceLine_starts hp'
        rw [hpp, hrest] at hrest'
        have hline := (List.cons.inj (List.append_cancel_left hrest')).1
        exact Nat.ne_of_lt hlt (Prod.mk.inj hline).2

end Stream

namespace Hierarchy

variable (h : Hierarchy)

/-- The import lines of `steps`, each with its file, lead one after the other to a file; none of them
leads to a file that has been passed. -/
inductive Route : List (Location × Nat) → Location → Prop
  | start : Route [] h.root
  | step {steps : List (Location × Nat)} {u v : Location} {raw : String} {n : Nat} (hu : Route steps u)
      (hl : (raw, n) ∈ h.lines u) (hi : h.Imports raw v) (hnew : v ∉ steps.map Prod.fst ++ [u]) :
      Route (steps ++ [(u, n)]) v

def trace : List (List (Location × Nat) × Item) :=
  Stream.trace h.settings h.tree [] h.root (Text.lines h.content)

variable {h} {steps : List (Location × Nat)} {file : Location} {p : List (Location × Nat) × Item}

theorem Route.isPath (hr : h.Route steps file) : h.IsPath (steps.map Prod.fst ++ [file]) := by
  induction hr with
  | start => exact isPath_singleton_iff.2 rfl
  | step _ hl hi hnew ih =>
      rw [List.map_append, List.map_singleton]
      exact isPath_append_singleton_iff.2 ⟨ih, ⟨_, _, hl, hi⟩, hnew⟩

theorem Route.text? {target : Location} {content : String} (hr : h.Route steps file)
    (hnew : target ∉ steps.map Prod.fst ++ [file])
    (hread : Import.readDocument h.tree target = .ok content) : h.text? target = some content := by
  rw [text?_of_notMem hr.isPath hnew, hread]
  rfl

theorem route_of_mem_trace {text : String} (hroute : h.Route steps file) (ht : h.text? file = some text)
    (hp : p ∈ Stream.trace h.settings h.tree steps file (Text.lines text)) :
    ∃ steps file raw n items, h.Route steps file ∧ (raw, n) ∈ h.lines file ∧
      Stream.readLine h.settings h.tree (steps.map Prod.fst) file raw n = .items items ∧
      p.1 = steps ++ [(file, n)] ∧ p.2 ∈ items := by
  generalize hlines : Text.lines text = lines at hp
  induction steps, file, lines using Stream.entering_induction (s := h.settings) (t := h.tree)
    generalizing text with
  | step steps file lines ih =>
      subst hlines
      rw [Stream.trace_eq_flatMap, List.mem_flatMap] at hp
      obtain ⟨⟨raw, n⟩, hl, hp⟩ := hp
      have hl : (raw, n) ∈ h.lines file := mem_lines_iff.2 ⟨text, ht, hl⟩
      cases hr : Stream.readLine h.settings h.tree (steps.map Prod.fst) file raw n with
      | items items =>
          rw [Stream.traceLine_of_items hr] at hp
          obtain ⟨x, hx, rfl⟩ := List.mem_map.1 hp
          exact ⟨steps, file, raw, n, items, hroute, hl, hr, rfl, hx⟩
      | file target content =>
          rw [Stream.traceLine_of_file hr] at hp
          obtain ⟨hi, hlocate, hread, hnew⟩ := Stream.readLine_eq_file_iff.1 hr
          have hstep := hroute.step hl ⟨hi, hlocate, content, hread⟩ hnew
          exact ih raw n target content hr hstep (hroute.text? hnew hread) rfl hp

theorem Route.trace_subset {text : String} (hroute : h.Route steps file) (ht : h.text? file = some text) :
    Stream.trace h.settings h.tree steps file (Text.lines text) ⊆ h.trace := by
  induction hroute generalizing text with
  | start =>
      rw [Hierarchy.text?, if_pos rfl] at ht
      cases ht
      exact List.Subset.refl _
  | @step steps u v raw n hu hl hi hnew ih =>
      obtain ⟨textu, htu, hm⟩ := mem_lines_iff.1 hl
      obtain ⟨himport, hlocate, content, hread⟩ := hi
      obtain rfl := Option.some.inj (ht.symm.trans (hu.text? hnew hread))
      have hr : Stream.readLine h.settings h.tree (steps.map Prod.fst) u raw n = .file v text :=
        Stream.readLine_eq_file_iff.2 ⟨himport, hlocate, hread, hnew⟩
      refine List.Subset.trans ?_ (ih htu)
      intro p hp
      rw [Stream.trace_eq_flatMap, List.mem_flatMap]
      refine ⟨(raw, n), hm, ?_⟩
      rwa [Stream.traceLine_of_file hr]

theorem mem_trace_iff : p ∈ h.trace ↔ ∃ steps file raw n items, h.Route steps file ∧
    (raw, n) ∈ h.lines file ∧
    Stream.readLine h.settings h.tree (steps.map Prod.fst) file raw n = .items items ∧
    p.1 = steps ++ [(file, n)] ∧ p.2 ∈ items := by
  constructor
  · exact route_of_mem_trace .start (if_pos rfl)
  · rintro ⟨steps, file, raw, n, items, hroute, hl, hr, hp, hx⟩
    obtain ⟨text, ht, hm⟩ := mem_lines_iff.1 hl
    apply hroute.trace_subset ht
    rw [Stream.trace_eq_flatMap, List.mem_flatMap]
    refine ⟨(raw, n), hm, ?_⟩
    rw [Stream.traceLine_of_items hr]
    exact List.mem_map.2 ⟨p.2, hx, Prod.ext hp.symm rfl⟩

theorem stream_issues_eq (h : Hierarchy) : h.stream.issues = h.trace.filterMap fun p => p.2.issue? := by
  have hmap : h.trace.map Prod.snd = Stream.expand h.settings h.tree [] h.root (Text.lines h.content) :=
    Stream.map_snd_trace _
  change (Stream.expand h.settings h.tree [] h.root (Text.lines h.content)).filterMap Item.issue? = _
  rw [← hmap, List.filterMap_map]
  rfl

end Hierarchy

end LayeredConfig
