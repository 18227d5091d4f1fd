import LayeredConfig.Proofs.FileTree
import LayeredConfig.Proofs.Hierarchy.Containment
import LayeredConfig.Proofs.Hierarchy.Issues
import LayeredConfig.Proofs.Hierarchy.Simulation

namespace LayeredConfig

/-- What bytes that are no text are reported with. -/
def Text.Utf8.complaint? (bytes : List UInt8) : Option String :=
  match decode bytes with
  | .ok _ => none
  | .error fault => some fault.message

/-- The problem of an import that leads back to the document `root`, whose file holds `bytes`, from the last
of the files `active`. -/
def ImportProblem.leadingBack (root : Location) (active : List Location) (bytes : List UInt8) : ImportProblem :=
  if (Path.ofLocation root).fits then
    match Text.Utf8.decode bytes with
    | .ok _ => .cyclic (active ++ [root])
    | .error fault => .unreadable ⟨.ofLocation root, .undecodable fault⟩
  else .unreadable ⟨.ofLocation root, .blocked .tooLong⟩

structure FileTree.DiffersAt (root : Location) (t t' : FileTree) : Prop where
  layout : t.SameLayout t'
  elsewhere : ∀ l ∈ t.files, l ≠ root → Import.readDocument t' l = Import.readDocument t l

/-- The file `root` reads as `bytes`, if its path is not too long to be read by. -/
def FileTree.Holds (t : FileTree) (root : Location) (bytes : List UInt8) : Prop :=
  Import.readDocument t root =
    if (Path.ofLocation root).fits then
      (FileTree.textOfBytes bytes).mapError fun fault => ⟨.ofLocation root, .undecodable fault⟩
    else .error ⟨.ofLocation root, .blocked .tooLong⟩

def Hierarchy.LeadsBack (h : Hierarchy) (raw : String) : Prop :=
  Line.IsImport raw ∧
    Import.locate h.settings h.tree (Import.nameOfLine (Text.trim raw)) = .ok (some h.root)

variable {s : Settings} {t t' : FileTree} {root : Location} {bytes bytes' : List UInt8}

theorem ReadError.message_undecodable (p : Path) (fault : Text.Utf8.Fault) :
    message p (.undecodable fault) = fault.message := rfl

theorem UnreadableFile.message_undecodable (p : Path) (fault : Text.Utf8.Fault) :
    message ⟨p, .undecodable fault⟩ = s!"Failed to read metaconfig file {p}: " ++ fault.message := by
  unfold UnreadableFile.message
  exact congrArg _ (ReadError.message_undecodable p fault)

theorem UnreadableFile.message_undecodable_inj {p : Path} {fault fault' : Text.Utf8.Fault} :
    message ⟨p, .undecodable fault'⟩ = message ⟨p, .undecodable fault⟩ ↔ fault'.message = fault.message := by
  rw [message_undecodable, message_undecodable, String.append_right_inj]

namespace ImportProblem

variable {active active' : List Location} {file : Location} {n : Int} {text : String}

theorem issue_unreadable (e : UnreadableFile) : (ImportProblem.unreadable e).issue s file n text =
    ⟨.missingImport, .warning, e.message, .ofLocation file, n, Line.key text, none⟩ := rfl

theorem issue_leadingBack_congr
    (h : ¬(Path.ofLocation root).fits ∨ Text.Utf8.complaint? bytes' = Text.Utf8.complaint? bytes) :
    (leadingBack root active bytes').issue s file n text = (leadingBack root active bytes).issue s file n text := by
  unfold leadingBack
  rcases h with h | h
  · rw [if_neg h, if_neg h]
  by_cases hfits : (Path.ofLocation root).fits
  swap
  · rw [if_neg hfits, if_neg hfits]
  rw [if_pos hfits, if_pos hfits]
  simp only [Text.Utf8.complaint?] at h
  cases hd : Text.Utf8.decode bytes <;> cases hd' : Text.Utf8.decode bytes' <;> simp only [hd, hd'] at h ⊢
  · rw [issue_unreadable, issue_unreadable,
      UnreadableFile.message_undecodable_inj.2 (Option.some.inj h)]
  · cases h
  · cases h

theorem complaint?_eq_of_issue_eq (hfits : (Path.ofLocation root).fits)
    (h : (leadingBack root active' bytes').issue s file n text =
      (leadingBack root active bytes).issue s file n text) :
    Text.Utf8.complaint? bytes' = Text.Utf8.complaint? bytes := by
  have hkind := congrArg Issue.kind h
  have hmessage := congrArg Issue.message h
  simp only [leadingBack, if_pos hfits] at hkind hmessage
  simp only [Text.Utf8.complaint?]
  cases hd : Text.Utf8.decode bytes <;> cases hd' : Text.Utf8.decode bytes' <;>
    simp only [hd, hd'] at hkind hmessage ⊢
  · exact congrArg some (UnreadableFile.message_undecodable_inj.1 hmessage)
  · cases hkind
  · cases hkind

end ImportProblem

namespace FileTree

theorem differsAt_put (hc : t.Closed) (hroot : t.find? root = some (.file bytes)) (bytes' : List UInt8) :
    t.DiffersAt root (t.put root (.file bytes')) := by
  have hlayout := sameLayout_put hroot bytes'
  refine ⟨hlayout, fun l hl hne => ?_⟩
  have hread : (t.put root (.file bytes')).readBytes (.ofLocation l) = t.readBytes (.ofLocation l) := by
    apply hlayout.readBytes_of_find?
    rw [hc.destination_ofLocation hl, t.find?_put_of_ne hne]
  rw [Import.readDocument, Import.readDocument, readText, readText, hread]

theorem Closed.holds (hc : t.Closed) (h : t.SameLayout t') (hroot : t'.find? root = some (.file bytes)) :
    t'.Holds root bytes := by
  rw [Holds, Import.readDocument, readText]
  by_cases hfits : (Path.ofLocation root).fits
  · rw [if_pos hfits, hc.readBytes_ofLocation h hroot hfits]
    cases hb : textOfBytes bytes <;> simp [bind, Except.bind, Except.mapError, hb]
  · rw [if_neg hfits, readBytes, node?, obstacle?, if_neg hfits]
    rfl

end FileTree

namespace Import

theorem open?_leadingBack (hroot : t.Holds root bytes) {active : List Location} (hactive : active.head? = some root)
    {name : String} (hlocate : locate s t name = .ok (some root)) :
    open? s t active name = .error (.problem (.leadingBack root active bytes)) := by
  obtain ⟨rest, rfl⟩ := List.head?_eq_some_iff.1 hactive
  rw [FileTree.Holds] at hroot
  simp only [open?, hlocate, hroot, FileTree.textOfBytes, ImportProblem.leadingBack]
  by_cases hfits : (Path.ofLocation root).fits
  swap
  · rw [if_neg hfits, if_neg hfits]
  rw [if_pos hfits, if_pos hfits]
  cases Text.Utf8.decode bytes with
  | error fault => rfl
  | ok cs =>
      have hchain : (root :: rest).dropWhile (· ≠ root) = root :: rest := by simp
      simp only [Except.map, Except.mapError, List.mem_cons_self, if_true, hchain]

theorem open?_of_ne (hd : t.DiffersAt root t') (active : List Location) {name : String}
    (hlocate : locate s t name ≠ .ok (some root)) : open? s t' active name = open? s t active name := by
  rw [open?, open?, locate_of_sameLayout hd.layout]
  rcases hl : locate s t name with _ | _ | target
  · rfl
  · rfl
  · have hread := hd.elsewhere target (mem_files_of_locate s t hl) fun he => hlocate (he ▸ hl)
    simp only [hread]

end Import

namespace Stream

variable {importers : List Location} {file : Location} {raw : String} {n : Nat}

theorem readLine_leadingBack (hroot : t.Holds root bytes) (hactive : (importers ++ [file]).head? = some root)
    (hi : Line.IsImport raw)
    (hlocate : Import.locate s t (Import.nameOfLine (Text.trim raw)) = .ok (some root)) :
    readLine s t importers file raw n = .items [.issue
      ((ImportProblem.leadingBack root (importers ++ [file]) bytes).issue s file n (Text.trim raw))] := by
  rw [readLine_of_isImport hi, Import.open?_leadingBack hroot hactive hlocate]
  rfl

theorem readLine_of_ne (hd : t.DiffersAt root t')
    (hback : ¬(Line.IsImport raw ∧
      Import.locate s t (Import.nameOfLine (Text.trim raw)) = .ok (some root))) :
    readLine s t' importers file raw n = readLine s t importers file raw n := by
  by_cases hb : Text.trim raw = ""
  · rw [readLine_of_blank hb, readLine_of_blank hb]
  rcases Line.isContent_or_isImport hb with hc | hi
  · rw [readLine_of_isContent hc, readLine_of_isContent hc]
  · rw [readLine_of_isImport hi, readLine_of_isImport hi,
      Import.open?_of_ne hd _ fun hlocate => hback ⟨hi, hlocate⟩]

end Stream

namespace Hierarchy

variable {h : Hierarchy} {file : Location} {raw : String} {n : Nat}

theorem mem_issues_of_leadsBack_iff (hroot : h.tree.Holds h.root bytes) (hl : (raw, n) ∈ h.lines file)
    (hb : h.LeadsBack raw) (i : Issue) :
    i ∈ h.stream.issues ∧ i.anchor = (.ofLocation file, (n : Int)) ↔
      ∃ importers, h.IsPath (importers ++ [file]) ∧
        i = (ImportProblem.leadingBack h.root (importers ++ [file]) bytes).issue h.settings file n
          (Text.trim raw) := by
  obtain ⟨hi, hlocate⟩ := hb
  constructor
  · rintro ⟨hmem, hanchor⟩
    obtain ⟨importers, file', raw', n', hp, hl', _, problem, hopen, rfl⟩ := mem_stream_issues_iff.1 hmem
    obtain ⟨hfile, hn⟩ := Prod.mk.inj hanchor
    obtain rfl : file' = file := Path.ofLocation_inj.1 hfile
    obtain rfl : n' = n := Int.ofNat_inj.1 hn
    obtain rfl : raw' = raw := lines_inj hl' hl
    rw [Import.open?_leadingBack hroot hp.head hlocate] at hopen
    cases hopen
    exact ⟨importers, hp, rfl⟩
  · rintro ⟨importers, hp, rfl⟩
    refine ⟨mem_stream_issues_iff.2 ⟨importers, file, raw, n, hp, hl, hi, _, ?_, rfl⟩, rfl⟩
    exact Import.open?_leadingBack hroot hp.head hlocate

section DiffersAt

variable (hd : h.tree.DiffersAt h.root t') (hroot : h.tree.Holds h.root bytes) (hroot' : t'.Holds h.root bytes')

include hd

theorem lines_of_differsAt (hfile : file = h.root ∨ file ∈ h.tree.files) :
    ({ h with tree := t' } : Hierarchy).lines file = h.lines file := by
  by_cases hne : file = h.root
  · simp only [lines, text?, if_pos hne]
  · simp only [lines, text?, if_neg hne, hd.elsewhere file (hfile.resolve_left hne) hne]

include hroot hroot'

theorem simulation_of_differsAt {q : List Item → List Item → Prop} (hrefl : ∀ xs, q xs xs)
    (happend : ∀ {xs xs' ys ys'}, q xs xs' → q ys ys' → q (xs ++ ys) (xs' ++ ys'))
    (hback : ∀ importers file raw n, h.IsPath (importers ++ [file]) → (raw, n) ∈ h.lines file →
      h.LeadsBack raw → q
        [.issue ((ImportProblem.leadingBack h.root (importers ++ [file]) bytes).issue h.settings file n
          (Text.trim raw))]
        [.issue ((ImportProblem.leadingBack h.root (importers ++ [file]) bytes').issue h.settings file n
          (Text.trim raw))]) :
    Simulation h.settings h.tree h.settings t' q fun v v' => v' = v ∧ h.Visits v where
  nil := hrefl []
  append := happend
  step := by
    rintro _ v ⟨rfl, hv⟩
    refine List.forall₂_same.2 fun ⟨raw, n⟩ hl => ?_
    obtain ⟨hp, htext⟩ := hv.isPath
    by_cases hb : h.LeadsBack raw
    · have hlocate' : Import.locate h.settings t' (Import.nameOfLine (Text.trim raw)) =
          .ok (some h.root) := by
        rw [Import.locate_of_sameLayout hd.layout, hb.2]
      rw [Visit.reading, Visit.reading, Stream.readLine_leadingBack hroot hp.head hb.1 hb.2,
        Stream.readLine_leadingBack hroot' hp.head hb.1 hlocate']
      exact .items (hback _ _ _ _ hp (mem_lines_iff.2 ⟨_, htext, hl⟩) hb)
    · rw [Visit.reading, Visit.reading, Stream.readLine_of_ne hd hb]
      cases hr : Stream.readLine h.settings h.tree v.importers v.file raw n with
      | items items => exact .items (hrefl items)
      | file target content => exact .file ⟨rfl, hv.tail ⟨rfl, (raw, n), hl, hr⟩⟩

theorem directives_of_differsAt :
    ({ h with tree := t' } : Hierarchy).stream.directives = h.stream.directives := by
  have hsim := simulation_of_differsAt hd hroot hroot'
    (q := fun xs xs' => xs'.filterMap Item.directive? = xs.filterMap Item.directive?) (fun _ => rfl)
    (fun hxs hys => by rw [List.filterMap_append, List.filterMap_append, hxs, hys])
    (fun _ _ _ _ _ _ _ => rfl)
  exact hsim.items ⟨rfl, .refl⟩

theorem issues_of_differsAt_iff :
    ({ h with tree := t' } : Hierarchy).stream.issues = h.stream.issues ↔
      (¬(Path.ofLocation h.root).fits ∨ Text.Utf8.complaint? bytes' = Text.Utf8.complaint? bytes) ∨
        ∀ file raw n, h.Reaches file → (raw, n) ∈ h.lines file → ¬h.LeadsBack raw := by
  constructor
  · intro hissues
    rw [or_iff_not_imp_right, or_iff_not_imp_left, not_not]
    intro hback hfits
    simp only [not_forall, not_not, exists_prop] at hback
    obtain ⟨file, raw, n, hfile, hl, hb⟩ := hback
    obtain ⟨importers, hp⟩ := hfile.exists_isPath
    have hi := (mem_issues_of_leadsBack_iff hroot hl hb _).2 ⟨importers, hp, rfl⟩
    have hl' : (raw, n) ∈ ({ h with tree := t' } : Hierarchy).lines file := by
      rw [lines_of_differsAt hd (hp.eq_root_or_mem_files (List.mem_append_right _ List.mem_cons_self))]
      exact hl
    have hb' : ({ h with tree := t' } : Hierarchy).LeadsBack raw :=
      ⟨hb.1, (Import.locate_of_sameLayout hd.layout _ _).trans hb.2⟩
    rw [← hissues, mem_issues_of_leadsBack_iff (h := { h with tree := t' }) hroot' hl' hb'] at hi
    obtain ⟨_, _, he⟩ := hi
    exact ImportProblem.complaint?_eq_of_issue_eq hfits he.symm
  · intro hsame
    have hsim := simulation_of_differsAt hd hroot hroot'
      (q := fun xs xs' => xs'.filterMap Item.issue? = xs.filterMap Item.issue?) (fun _ => rfl)
      (fun hxs hys => by rw [List.filterMap_append, List.filterMap_append, hxs, hys]) ?_
    · exact hsim.items ⟨rfl, .refl⟩
    · intro importers file raw n hp hl hb
      rcases hsame with hsame | hnone
      · rw [ImportProblem.issue_leadingBack_congr hsame]
      · exact absurd hb (hnone file raw n hp.reaches hl)

theorem failure?_of_differsAt : ({ h with tree := t' } : Hierarchy).failure? = h.failure? := by
  have hsim := simulation_of_differsAt hd hroot hroot'
    (q := fun xs xs' => xs'.findSome? Item.failure? = xs.findSome? Item.failure?) (fun _ => rfl)
    (fun hxs hys => by rw [List.findSome?_append, List.findSome?_append, hxs, hys])
    (fun _ _ _ _ _ _ _ => rfl)
  exact hsim.items ⟨rfl, .refl⟩

end DiffersAt

end Hierarchy

namespace Document

variable {path : Path}

/-- What is saved of a document that is given by its text never shows in its directives. In the issues it shows
exactly if an import leads back to the document and the saved bytes are reported differently: such an import
closes a cycle if they are text, and imports a file that cannot be read if they are not. -/
theorem saved_bytes_unseen_iff (hc : t.Closed) (hroot : t.canonical path = .ok root)
    (hfile : t.find? root = some (.file bytes)) (s : Settings) (text : String) (bytes' : List UInt8) :
    let h : Hierarchy := ⟨s, t, root, text⟩
    Concur (fun st st' => st'.directives = st.directives ∧
      (st'.issues = st.issues ↔
        (¬(Path.ofLocation root).fits ∨ Text.Utf8.complaint? bytes' = Text.Utf8.complaint? bytes) ∨
          ∀ file raw n, h.Reaches file → (raw, n) ∈ h.lines file → ¬h.LeadsBack raw) ∧
      ∀ file raw n, (raw, n) ∈ h.lines file → h.LeadsBack raw → ∀ i,
        i ∈ st.issues ∧ i.anchor = (.ofLocation file, (n : Int)) ↔
          ∃ importers, h.IsPath (importers ++ [file]) ∧
            i = (ImportProblem.leadingBack root (importers ++ [file]) bytes).issue s file n (Text.trim raw))
      (stream s t path (some text)) (stream s (t.put root (.file bytes')) path (some text)) := by
  intro h
  have hlayout := FileTree.sameLayout_put hfile bytes'
  have hne : root ≠ [] := by
    rintro rfl
    cases hfile
  have hd : h.tree.DiffersAt h.root (t.put root (.file bytes')) := FileTree.differsAt_put hc hfile bytes'
  have hholds : h.tree.Holds h.root bytes := hc.holds ⟨rfl, .refl _⟩ hfile
  have hholds' : (t.put root (.file bytes')).Holds h.root bytes' :=
    hc.holds hlayout (t.find?_put_self hne (.file bytes'))
  have hf : h.FoundAt path (some text) := Hierarchy.foundAt_of_canonical hroot
  have hf' : ({ h with tree := t.put root (.file bytes') } : Hierarchy).FoundAt path (some text) :=
    Hierarchy.foundAt_of_canonical ((hlayout.canonical path).trans hroot)
  have hstream := hf.stream
  have hstream' := hf'.stream
  rw [hstream, hstream']
  refine Hierarchy.concur_settle (Hierarchy.failure?_of_differsAt hd hholds hholds') ?_
  exact ⟨Hierarchy.directives_of_differsAt hd hholds hholds',
    Hierarchy.issues_of_differsAt_iff hd hholds hholds',
    fun _ _ _ hl hb i => Hierarchy.mem_issues_of_leadsBack_iff hholds hl hb i⟩

open Hierarchy (place)

/-- The document `d`, whose file holds `bytes`, and `a` import each other. -/
def entwined (bytes : List UInt8) : Hierarchy where
  settings := ⟨.ofString "/w", .ofString "/w/m", "x", .inclusion⟩
  tree := {
    here := place "/w"
    entries := [
      (place "/w", .directory), (place "/w/m", .directory), (place "/w/m/d", .file bytes),
      (place "/w/m/a", .file "A=1\n!d".toUTF8.data.toList)]
    nodup := (by decide +kernel : [place "/w", place "/w/m", place "/w/m/d", place "/w/m/a"].Nodup) }
  root := place "/w/m/d"
  content := "!a\nB"

def earlier : List UInt8 := "!a".toUTF8.data.toList

theorem entwined_saved_bytes_unseen :
    let h := entwined earlier
    h.tree.Closed ∧ h.tree.canonical (.ofString "m/d") = .ok h.root ∧
      h.tree.find? h.root = some (.file earlier) ∧
      ∃ st st', stream h.settings h.tree (.ofString "m/d") (some h.content) = .ok st ∧
        stream h.settings (h.tree.put h.root (.file [])) (.ofString "m/d") (some h.content) = .ok st' ∧
        st'.directives = st.directives ∧ st'.issues = st.issues ∧
        ∀ i ∈ st.issues, i.anchor = (.ofLocation (place "/w/m/a"), 2) → i.kind = .cyclicImport := by
  intro h
  have hc : h.tree.Closed := ⟨by decide +kernel, by decide +kernel⟩
  have hroot : h.tree.canonical (.ofString "m/d") = .ok h.root := by decide +kernel
  have hfile : h.tree.find? h.root = some (.file earlier) := by decide +kernel
  have hr : h.ReadFrom (.ofString "m/d") (some h.content) :=
    (Hierarchy.foundAt_of_canonical hroot).readFrom (by decide +kernel)
  have hboth := saved_bytes_unseen_iff hc hroot hfile h.settings h.content []
  rw [hr.stream] at hboth
  obtain ⟨st', hst', hdirectives, hissues, hback⟩ := hboth.exists_ok
  refine ⟨hc, hroot, hfile, _, st', hr.stream, hst', hdirectives,
    hissues.2 (.inl (.inr (by decide +kernel))), ?_⟩
  intro i hi hanchor
  have hline : ("!d", 2) ∈ h.lines (place "/w/m/a") := by decide +kernel
  have hleads : h.LeadsBack "!d" := ⟨by decide +kernel, by decide +kernel⟩
  obtain ⟨_, _, rfl⟩ := (hback _ _ _ hline hleads i).1 ⟨hi, hanchor⟩
  rfl

/-- One byte that is no text, and the cycle is reported as a file that cannot be read. -/
theorem entwined_saved_byte_seen :
    let h := entwined earlier
    let kinds := fun t => (stream h.settings t (.ofString "m/d") (some h.content)).map
      fun st => st.issues.map fun i => i.kind
    h.tree.canonical (.ofString "m/d") = .ok h.root ∧ h.tree.find? h.root = some (.file earlier) ∧
      kinds h.tree = .ok [.cyclicImport] ∧ kinds (h.tree.put h.root (.file [0xff])) = .ok [.missingImport] := by
  decide +kernel

end Document

end LayeredConfig
