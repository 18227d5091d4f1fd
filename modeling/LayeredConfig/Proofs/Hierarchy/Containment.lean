import Mathlib.Data.List.Perm.Subperm
import LayeredConfig.Proofs.FileTree
import LayeredConfig.Proofs.Hierarchy.Expansion

namespace LayeredConfig

namespace Stream

variable (s : Settings) (t : FileTree)

/-- What can end the reading of a file before its last line. -/
inductive Interruption
  | active (chain : List Location)
  | unreadable (error : UnreadableFile)
  | misread (error : DirectiveError)
  | failed (error : PathError)

/-- What the import line makes of the failure of its file. A misread line is not its concern, nor is a name
that cannot be looked up. -/
def Interruption.atImport (file : Location) (line : Nat) (text : String) :
    Interruption → Except Interruption (List Item)
  | .active chain => .ok [.issue ((ImportProblem.cyclic chain).issue s file line text)]
  | .unreadable error => .ok [.issue ((ImportProblem.unreadable error).issue s file line text)]
  | .misread error => .error (.misread error)
  | .failed error => .error (.failed error)

inductive Demand
  | items (items : List Item)
  | file (target : Location)

def demand (active : List Location) (file : Location) (line : Nat) (text : String) :
    Except Interruption Demand :=
  if text = "" then .ok (.items [])
  else if text.toList.head? = some '!' then
    match Import.locate s t (Import.nameOfLine text) with
    | .error e => .error (.failed e)
    | .ok none =>
        .ok (.items [.issue ((ImportProblem.missing (Import.nameOfLine text)).issue s file line text)])
    | .ok (some target) => .ok (.file target)
  else
    match Directive.ofText s.commentPolicy (.ofLocation file) line active.length text with
    | .ok d => .ok (.items [.directive d])
    | .error e => .error (.misread e)

theorem mem_files_of_demand {active : List Location} {file target : Location} {line : Nat} {text : String}
    (h : demand s t active file line text = .ok (.file target)) : target ∈ t.files := by
  unfold demand at h
  split at h
  · cases h
  · split at h
    · split at h <;> cases h
      rename_i hl
      exact Import.mem_files_of_locate s t hl
    · split at h <;> cases h

/-- Only the document itself may be no file of the tree. -/
def reserve (active : List Location) (file : Location) : Nat :=
  unentered t active + if file ∈ t.files then 0 else 1

theorem reserve_lt {active : List Location} {file target : Location} (htarget : target ∈ t.files)
    (hnew : file ∉ active) : reserve t (active ++ [file]) target < reserve t active file := by
  unfold reserve
  rw [if_pos htarget]
  by_cases hfile : file ∈ t.files
  · have := unentered_lt t hfile hnew
    omega
  · have hsame : unentered t (active ++ [file]) = unentered t active := by
      unfold unentered
      congr 1
      apply List.filter_congr
      intro l hl
      have hne : l ≠ file := fun he => hfile (he ▸ hl)
      simp [hne]
    rw [hsame, if_neg hfile]
    omega

/-- Reads a file that the files `active` lead to, and raises every failure where it arises: an
imported file is read before it turns out to be active. -/
def enter (active : List Location) (file : Location) (lines : List String) :
    Except Interruption (List Item) :=
  if _hnew : file ∈ active then .error (.active (active.dropWhile (· ≠ file) ++ [file]))
  else do
    let items ← (lines.zipIdx 1).mapM fun (raw, line) =>
      match _hd : demand s t active file line (Text.trim raw) with
      | .error e => .error e
      | .ok (.items items) => .ok items
      | .ok (.file target) =>
          tryCatch
            (do
              let content ← (Import.readDocument t target).mapError Interruption.unreadable
              enter (active ++ [file]) target (Text.lines content))
            (Interruption.atImport s file line (Text.trim raw))
    return items.flatten
termination_by reserve t active file
decreasing_by exact reserve_lt t (mem_files_of_demand s t _hd) _hnew

def enterLine (active : List Location) (file : Location) (raw : String) (line : Nat) :
    Except Interruption (List Item) :=
  match demand s t active file line (Text.trim raw) with
  | .error e => .error e
  | .ok (.items items) => .ok items
  | .ok (.file target) =>
      tryCatch
        (do
          let content ← (Import.readDocument t target).mapError Interruption.unreadable
          enter s t (active ++ [file]) target (Text.lines content))
        (Interruption.atImport s file line (Text.trim raw))

variable {s t} {active : List Location} {file : Location}

theorem enter_of_mem (hm : file ∈ active) (lines : List String) :
    enter s t active file lines = .error (.active (active.dropWhile (· ≠ file) ++ [file])) := by
  rw [enter, dif_pos hm]

theorem enter_eq_mapM (hm : file ∉ active) (lines : List String) :
    enter s t active file lines = (do
      let items ← (lines.zipIdx 1).mapM fun line => enterLine s t active file line.1 line.2
      return items.flatten) := by
  rw [enter, dif_neg hm]
  congr 2
  funext line
  dsimp only [enterLine]
  split <;> simp_all

theorem demand_of_isContent {raw : String} (h : Line.IsContent raw) (line : Nat) :
    demand s t active file line (Text.trim raw) =
      .ok (.items [.directive (Line.directive s.commentPolicy file raw line active.length)]) := by
  have hi : ¬(Text.trim raw).toList.head? = some '!' := h.2
  simp only [demand, if_neg h.1, if_neg hi, h.ofText]

theorem demand_of_isImport {raw : String} (h : Line.IsImport raw) (line : Nat) :
    demand s t active file line (Text.trim raw) =
      match Import.locate s t (Import.nameOfLine (Text.trim raw)) with
      | .error e => .error (.failed e)
      | .ok none => .ok (.items [.issue
          ((ImportProblem.missing (Import.nameOfLine (Text.trim raw))).issue s file line (Text.trim raw))])
      | .ok (some target) => .ok (.file target) := by
  have hi : (Text.trim raw).toList.head? = some '!' := h
  simp only [demand, if_neg h.trim_ne_empty, if_pos hi]

def raise (items : List Item) : Except Interruption (List Item) :=
  (items.findSome? Item.failure?).elim (.ok items) fun e => .error (.failed e)

theorem raise_append (xs ys : List Item) : raise (xs ++ ys) = do
    let xs ← raise xs
    let ys ← raise ys
    return xs ++ ys := by
  unfold raise
  rw [List.findSome?_append]
  cases xs.findSome? Item.failure? <;> cases ys.findSome? Item.failure? <;> rfl

theorem raise_flatMap {α : Type} (f : α → List Item) (l : List α) : raise (l.flatMap f) = do
    let items ← l.mapM fun a => raise (f a)
    return items.flatten := by
  induction l with
  | nil => rfl
  | cons a l ih =>
      rw [List.flatMap_cons, raise_append, ih, List.mapM_cons]
      simp only [bind_assoc, pure_bind, List.flatten_cons]

theorem tryCatch_raise (items : List Item) (line : Nat) (text : String) :
    tryCatch (raise items) (Interruption.atImport s file line text) = raise items := by
  unfold raise
  cases items.findSome? Item.failure? <;> rfl

theorem enterLine_eq_raise
    (ih : ∀ target content, target ∈ t.files → target ∉ active ++ [file] →
      enter s t (active ++ [file]) target (Text.lines content) =
        raise (expand s t (active ++ [file]) target (Text.lines content)))
    (raw : String) (line : Nat) :
    enterLine s t active file raw line = raise (expandLine s t active file raw line) := by
  by_cases hb : Text.trim raw = ""
  · simp [enterLine, demand, expandLine, readLine_of_blank hb, hb, raise]
  · rcases Line.isContent_or_isImport hb with hc | hi
    · rw [enterLine, demand_of_isContent hc, expandLine, readLine_of_isContent hc]
      rfl
    · rw [enterLine, demand_of_isImport hi, expandLine, readLine_of_isImport hi]
      rcases hl : Import.locate s t (Import.nameOfLine (Text.trim raw)) with e | _ | target
      · simp only [Import.open?, hl]
        rfl
      · simp only [Import.open?, hl]
        rfl
      · cases hr : Import.readDocument t target with
        | error e =>
            simp only [Import.open?, hl, hr]
            rfl
        | ok content =>
            by_cases hm : target ∈ active ++ [file]
            · simp only [Import.open?, hl, hr, if_pos hm]
              change tryCatch (enter s t (active ++ [file]) target (Text.lines content)) _ = _
              rw [enter_of_mem hm]
              rfl
            · simp only [Import.open?, hl, hr, if_neg hm]
              change tryCatch (enter s t (active ++ [file]) target (Text.lines content)) _ = _
              rw [ih target content (Import.mem_files_of_locate s t hl) hm, tryCatch_raise]

theorem enter_of_notMem (hm : file ∉ active) (lines : List String) :
    enter s t active file lines = raise (expand s t active file lines) := by
  -- With every file that is entered, one less is left to be entered.
  induction hr : reserve t active file using Nat.strong_induction_on generalizing active file lines with
  | _ r ih =>
      have hline : (fun line : String × Nat => enterLine s t active file line.1 line.2) =
          fun line => raise (expandLine s t active file line.1 line.2) := by
        funext line
        refine enterLine_eq_raise ?_ line.1 line.2
        intro target content htarget hnew
        exact ih _ (hr ▸ reserve_lt t htarget hm) hnew _ rfl
      rw [enter_eq_mapM hm, hline, expand_eq_flatMap, raise_flatMap]

end Stream

namespace Hierarchy

variable {h : Hierarchy}

theorem IsPath.eq_root_or_mem_files {p : List Location} {v : Location} (hp : h.IsPath p) (hv : v ∈ p) :
    v = h.root ∨ v ∈ h.tree.files := by
  obtain ⟨q, r, rfl⟩ := List.append_of_mem hv
  rw [← List.singleton_append, ← List.append_assoc] at hp
  have hp := hp.of_append (by simp)
  induction q using List.reverseRecOn with
  | nil => exact .inl (isPath_singleton_iff.1 hp)
  | append_singleton q u =>
      obtain ⟨_, ⟨_, _, _, hi⟩, _⟩ := isPath_append_singleton_iff.1 hp
      exact .inr hi.mem_files

theorem IsPath.length_le {p : List Location} (hp : h.IsPath p) : p.length ≤ h.tree.files.length + 1 := by
  have hsub : p ⊆ h.root :: h.tree.files := by
    intro v hv
    exact List.mem_cons.2 (hp.eq_root_or_mem_files hv)
  exact (hp.nodup.subperm hsub).length_le

theorem depth_le {d : Directive} (hd : d ∈ h.stream.directives) : d.depth ≤ h.tree.files.length := by
  obtain ⟨p, file, raw, n, hp, _, _, rfl⟩ := mem_stream_directives_iff.1 hd
  have hle := hp.length_le
  rw [List.length_append, List.length_singleton] at hle
  exact Int.ofNat_le.2 (Nat.le_of_succ_le_succ hle)

theorem enter_root (h : Hierarchy) : Stream.enter h.settings h.tree [] h.root (Text.lines h.content) =
    h.failure?.elim (.ok (Stream.items h.settings h.tree h.root h.content)) fun e => .error (.failed e) :=
  Stream.enter_of_notMem List.not_mem_nil _

end Hierarchy

namespace Import

variable {s : Settings} {t : FileTree} {name : String} {e : PathError}

theorem exists_tooLong_of_locate (h : locate s t name = .error e) :
    ∃ p ∈ candidates s (Text.trim name), t.obstacle? p = some .tooLong ∧ e = .tooLong p := by
  unfold locate at h
  simp only at h
  split at h
  · cases h
  · exact FileTree.exists_tooLong_of_firstFile? h

end Import

namespace Document

variable {s : Settings} {t : FileTree} {path : Path} {root : Location} {given : Option String}

theorem stream_of_canonical_error {error : PathError} (herror : t.canonical path = .error error)
    (given : Option String) : stream s t path given = .error (.path error) := by
  unfold stream expansion locate
  rw [herror]
  rfl

theorem stream_of_canonical (hroot : t.canonical path = .ok root) (given : Option String) :
    stream s t path given = text t root given >>= fun content =>
      Hierarchy.settle ⟨s, t, root, content⟩ (Hierarchy.stream ⟨s, t, root, content⟩) := by
  have hlocate : locate t path = .ok root := congrArg (Except.mapError DocumentError.path) hroot
  cases htext : text t root given with
  | error e =>
      unfold stream expansion
      rw [hlocate]
      change ((text t root given).bind _).bind _ = _
      rw [htext]
      rfl
  | ok content => exact Hierarchy.FoundAt.stream (h := ⟨s, t, root, content⟩) ⟨hlocate, htext⟩

theorem exists_readFrom {st : Stream} (hst : stream s t path given = .ok st) :
    ∃ h : Hierarchy, h.settings = s ∧ h.tree = t ∧ h.ReadFrom path given ∧ st = h.stream := by
  cases hroot : t.canonical path with
  | error e =>
      rw [stream_of_canonical_error hroot] at hst
      cases hst
  | ok root =>
      rw [stream_of_canonical hroot] at hst
      cases htext : text t root given with
      | error e =>
          rw [htext] at hst
          cases hst
      | ok content =>
          rw [htext] at hst
          obtain ⟨hsearched, rfl⟩ := Hierarchy.settle_eq_ok_iff.1 hst
          exact ⟨⟨s, t, root, content⟩, rfl, rfl,
            ⟨⟨congrArg (Except.mapError DocumentError.path) hroot, htext⟩, hsearched⟩, rfl⟩

theorem exists_stream_iff (hroot : t.canonical path = .ok root) :
    (∃ st, stream s t path given = .ok st) ↔
      ∃ content, text t root given = .ok content ∧ Hierarchy.Searched ⟨s, t, root, content⟩ := by
  rw [stream_of_canonical hroot]
  cases text t root given with
  | error e => simp [bind, Except.bind]
  | ok content =>
      change (∃ st, Hierarchy.settle ⟨s, t, root, content⟩ _ = .ok st) ↔ _
      simp [Hierarchy.settle_eq_ok_iff]

/-- A document that is there fails where it cannot be read, or at an import that it leads to. -/
inductive Fails (s : Settings) (t : FileTree) (root : Location) (given : Option String) : DocumentError → Prop
  | unreadable {e : UnreadableFile} (none : given = none) (h : Import.readDocument t root = .error e) :
      Fails s t root given (.unreadable e)
  | tooLong {content : String} {file : Location} {line : String × Nat} {p : Path}
      (text : text t root given = .ok content) (reaches : Hierarchy.Reaches ⟨s, t, root, content⟩ file)
      (mem : line ∈ Hierarchy.lines ⟨s, t, root, content⟩ file) (isImport : Line.IsImport line.1)
      (candidate : p ∈ Import.candidates s (Text.trim (Import.nameOfLine (Text.trim line.1))))
      (obstacle : t.obstacle? p = some .tooLong) : Fails s t root given (.path (.tooLong p))

theorem fails_of_failure? {content : String} (htext : text t root given = .ok content) {e : PathError}
    (he : Hierarchy.failure? ⟨s, t, root, content⟩ = some e) : Fails s t root given (.path e) := by
  obtain ⟨file, raw, n, hreaches, hl, hi, hlocate⟩ := Hierarchy.exists_of_failure? he
  obtain ⟨p, hp, hobstacle, rfl⟩ := Import.exists_tooLong_of_locate hlocate
  exact .tooLong htext hreaches hl hi hp hobstacle

theorem fails_of_stream (hroot : t.canonical path = .ok root) {e : DocumentError}
    (he : stream s t path given = .error e) : Fails s t root given e := by
  rw [stream_of_canonical hroot] at he
  cases htext : text t root given with
  | error e' =>
      rw [htext] at he
      cases he
      cases given with
      | some content => cases htext
      | none =>
          rw [text] at htext
          cases hread : Import.readDocument t root with
          | ok content =>
              rw [hread] at htext
              cases htext
          | error f =>
              rw [hread] at htext
              cases htext
              exact .unreadable rfl hread
  | ok content =>
      rw [htext] at he
      change Hierarchy.settle ⟨s, t, root, content⟩ _ = _ at he
      cases hfailure : Hierarchy.failure? ⟨s, t, root, content⟩ with
      | none => simp [Hierarchy.settle, hfailure] at he
      | some f =>
          simp only [Hierarchy.settle, hfailure, Option.elim_some, Except.error.injEq] at he
          subst he
          exact fails_of_failure? htext hfailure

theorem stream_eq_unreadable_iff (hroot : t.canonical path = .ok root) {e : UnreadableFile} :
    stream s t path none = .error (.unreadable e) ↔ Import.readDocument t root = .error e := by
  constructor
  · intro he
    cases fails_of_stream hroot he with
    | unreadable _ h => exact h
  · intro he
    rw [stream_of_canonical hroot, text, he]
    rfl

/-- A document that is there comes to a stream if it can be read and all that its imports name can be looked
up. Apart from that, what goes wrong at an import stays at its line, and the files that are being read are
never more than the tree has, besides the document. -/
theorem stream_contains_failures (s : Settings) (t : FileTree) (path : Path) :
    (∀ root, t.canonical path = .ok root →
      (∀ given, (∃ st, stream s t path (some given) = .ok st) ↔ Hierarchy.Searched ⟨s, t, root, given⟩) ∧
      ((∃ st, stream s t path none = .ok st) ↔
        ∃ content, Import.readDocument t root = .ok content ∧ Hierarchy.Searched ⟨s, t, root, content⟩) ∧
      (∀ e, stream s t path none = .error (.unreadable e) ↔ Import.readDocument t root = .error e) ∧
      ∀ given e, stream s t path given = .error e → Fails s t root given e) ∧
    (∀ error, t.canonical path = .error error →
      ∀ given, stream s t path given = .error (.path error)) ∧
    (∀ root content interruption, Stream.enter s t [] root (Text.lines content) = .error interruption →
      ∃ e, interruption = .failed e) ∧
    ∀ given st, stream s t path given = .ok st → ∃ h : Hierarchy, h.settings = s ∧ h.tree = t ∧
      h.ReadFrom path given ∧
      (∃ items, Stream.enter s t [] h.root (Text.lines h.content) = .ok items ∧
        st = .ofItems h.root items) ∧
      (∀ v, h.Visits v → v.active.Nodup ∧ v.active.length ≤ t.files.length + 1) ∧
      ∀ d ∈ st.directives, d.depth ≤ t.files.length := by
  refine ⟨?_, fun _ herror given => stream_of_canonical_error herror given, ?_, ?_⟩
  · intro root hroot
    refine ⟨fun given => ?_, ?_, fun e => stream_eq_unreadable_iff hroot, fun _ _ => fails_of_stream hroot⟩
    · rw [exists_stream_iff hroot]
      simp [text]
    · rw [exists_stream_iff hroot, text]
      cases Import.readDocument t root <;> simp [Except.mapError]
  · intro root content interruption he
    rw [Hierarchy.enter_root ⟨s, t, root, content⟩] at he
    cases hf : Hierarchy.failure? ⟨s, t, root, content⟩ with
    | none => simp [hf] at he
    | some e => exact ⟨e, by simpa [hf] using he.symm⟩
  · intro given st hst
    obtain ⟨h, rfl, rfl, hr, rfl⟩ := exists_readFrom hst
    refine ⟨h, rfl, rfl, hr, ⟨_, ?_, rfl⟩, ?_, fun d hd => Hierarchy.depth_le hd⟩
    · rw [Hierarchy.enter_root, Hierarchy.failure?_eq_none_iff.2 hr.searched]
      rfl
    · intro v hv
      obtain ⟨hp, _⟩ := Hierarchy.visits_iff.1 hv
      exact ⟨hp.nodup, hp.length_le⟩

/-- The document `d` is a link to itself. -/
def looping : FileTree where
  here := Hierarchy.place "/w"
  entries := [(Hierarchy.place "/w", .directory), (Hierarchy.place "/w/d", .link (.ofString "d"))]
  nodup := by decide +kernel

theorem stream_of_looping :
    stream Hierarchy.crossing.settings looping (.ofString "d") (some "A=1") =
        .error (.path (.loop (.ofLocation (Hierarchy.place "/w/d")))) ∧
      stream Hierarchy.crossing.settings looping (.ofString "d") none =
        .error (.path (.loop (.ofLocation (Hierarchy.place "/w/d")))) := by
  have hloop : looping.canonical (.ofString "d") =
      .error (.loop (.ofLocation (Hierarchy.place "/w/d"))) := by decide +kernel
  exact ⟨stream_of_canonical_error hloop _, stream_of_canonical_error hloop _⟩

end Document

end LayeredConfig
