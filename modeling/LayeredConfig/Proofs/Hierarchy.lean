import Mathlib.Data.List.Chain
import Mathlib.Data.Set.Defs
import Mathlib.Logic.Relation
import Mathlib.Tactic.Simps.Basic
import LayeredConfig.Document

namespace LayeredConfig

namespace Line

/-- An import line opens with `!`. -/
def IsImport (raw : String) : Prop := (Text.trim raw).toList.head? = some '!'

/-- A line that says something by itself. -/
def IsContent (raw : String) : Prop := Text.trim raw ≠ "" ∧ ¬IsImport raw

instance (raw : String) : Decidable (IsImport raw) := inferInstanceAs (Decidable (_ = _))

instance (raw : String) : Decidable (IsContent raw) := inferInstanceAs (Decidable (_ ∧ _))

@[simps]
def directive (policy : CommentPolicy) (file : Location) (raw : String) (n depth : Nat) : Directive where
  file := .ofLocation file
  line := n
  depth := depth
  kind := LineKind.ofText policy (Text.trim raw)
  key := key (Text.trim raw)
  value := value (Text.trim raw)
  text := Text.trim raw

theorem IsImport.trim_ne_empty {raw : String} (h : IsImport raw) : Text.trim raw ≠ "" := by
  intro he
  simp [IsImport, he] at h

theorem IsContent.ofText {raw : String} (h : IsContent raw) (policy : CommentPolicy) (file : Location)
    (n depth : Nat) : Directive.ofText policy (.ofLocation file) n depth (Text.trim raw) =
      .ok (directive policy file raw n depth) := by
  refine Directive.ofText_eq_ok_iff.2 ⟨?_, rfl⟩
  exact fun hk => h.2 (LineKind.ofText_eq_importing_iff.1 hk)

theorem IsImport.ofText {raw : String} (h : IsImport raw) (policy : CommentPolicy) (file : Path)
    (n depth : Int) : Directive.ofText policy file n depth (Text.trim raw) =
      .error (.importLine (Text.trim raw)) :=
  Directive.ofText_eq_error_iff.2 ⟨LineKind.ofText_eq_importing_iff.2 h, rfl⟩

theorem isContent_or_isImport {raw : String} (h : Text.trim raw ≠ "") : IsContent raw ∨ IsImport raw := by
  by_cases hi : IsImport raw
  · exact .inr hi
  · exact .inl ⟨h, hi⟩

end Line

/-- A document and its text, with the settings and the tree that its imports are looked up in. -/
structure Hierarchy where
  settings : Settings
  tree : FileTree
  root : Location
  content : String

namespace Hierarchy

variable (h : Hierarchy)

def text? (file : Location) : Option String :=
  if file = h.root then some h.content else (Import.readDocument h.tree file).toOption

def lines (file : Location) : List (String × Nat) :=
  (h.text? file).elim [] fun text => (Text.lines text).zipIdx 1

/-- What an import line leads to must be there and be text. -/
def Imports (raw : String) (target : Location) : Prop :=
  Line.IsImport raw ∧
    Import.locate h.settings h.tree (Import.nameOfLine (Text.trim raw)) = .ok (some target) ∧
    ∃ text, Import.readDocument h.tree target = .ok text

instance (raw : String) (target : Location) : Decidable (h.Imports raw target) :=
  decidable_of_iff (Line.IsImport raw ∧
      Import.locate h.settings h.tree (Import.nameOfLine (Text.trim raw)) = .ok (some target) ∧
      (Import.readDocument h.tree target).isOk) <| by
    unfold Imports
    cases Import.readDocument h.tree target <;> simp [Except.isOk, Except.toBool]

/-- The name of the import is too long to be looked up. -/
def Overlong (raw : String) : Prop :=
  Line.IsImport raw ∧ ∃ e, Import.locate h.settings h.tree (Import.nameOfLine (Text.trim raw)) = .error e

instance (raw : String) : Decidable (h.Overlong raw) :=
  decidable_of_iff (Line.IsImport raw ∧
      ¬(Import.locate h.settings h.tree (Import.nameOfLine (Text.trim raw))).isOk) <| by
    unfold Overlong
    cases Import.locate h.settings h.tree (Import.nameOfLine (Text.trim raw)) <;>
      simp [Except.isOk, Except.toBool]

def Edge (u v : Location) : Prop := ∃ raw n, (raw, n) ∈ h.lines u ∧ h.Imports raw v

def Reaches (v : Location) : Prop := Relation.ReflTransGen h.Edge h.root v

/-- Whatever an import names on the way can be looked up. -/
def Searched : Prop := ∀ file, h.Reaches file → ∀ line ∈ h.lines file, ¬h.Overlong line.1

/-- A simple path along the imports, from the document on. -/
structure IsPath (p : List Location) : Prop where
  head : p.head? = some h.root
  chain : p.IsChain h.Edge
  nodup : p.Nodup

/-- How many imports there are on the simple paths that lead to a file. -/
def pathLengths (file : Location) : Set Nat :=
  {k | ∃ p, h.IsPath p ∧ p.getLast? = some file ∧ p.length = k + 1}

def stream : Stream := .ofText h.settings h.tree h.root h.content

def failure? : Option PathError := Stream.failure? h.settings h.tree h.root h.content

def settle {α : Type} (a : α) : Except DocumentError α := h.failure?.elim (.ok a) fun e => .error (.path e)

def directives : List Directive := Precedence.order h.stream.directives

/-- The document is the one that `path` leads to, with the text `given` or else that of its file. -/
structure FoundAt (path : Path) (given : Option String) : Prop where
  locate : Document.locate h.tree path = .ok h.root
  text : Document.text h.tree h.root given = .ok h.content

structure ReadFrom (path : Path) (given : Option String) : Prop extends h.FoundAt path given where
  searched : h.Searched

variable {h}

theorem foundAt_of_canonical {path : Path} (hroot : h.tree.canonical path = .ok h.root) :
    h.FoundAt path (some h.content) :=
  ⟨congrArg (Except.mapError DocumentError.path) hroot, rfl⟩

theorem mapError_complete (h : Hierarchy) :
    (Stream.complete h.root (Stream.items h.settings h.tree h.root h.content)).mapError .path =
      h.settle h.stream := by
  unfold Stream.complete settle failure? Stream.failure?
  cases (Stream.items h.settings h.tree h.root h.content).findSome? Item.failure? <;> rfl

theorem map_settle {α β : Type} (h : Hierarchy) (f : α → β) (a : α) : f <$> h.settle a = h.settle (f a) := by
  unfold settle
  cases h.failure? <;> rfl

theorem settle_congr {α : Type} {h' : Hierarchy} (hf : h'.failure? = h.failure?) {a b : α} (hab : b = a) :
    h'.settle b = h.settle a := by
  rw [settle, settle, hf, hab]

theorem FoundAt.stream {path : Path} {given : Option String} (hf : h.FoundAt path given) :
    Document.stream h.settings h.tree path given = h.settle h.stream := by
  unfold Document.stream Document.expansion
  rw [hf.locate]
  change ((Document.text h.tree h.root given).bind _).bind _ = _
  rw [hf.text]
  exact h.mapError_complete

theorem lines_root (h : Hierarchy) : h.lines h.root = (Text.lines h.content).zipIdx 1 := by
  rw [lines, text?, if_pos rfl, Option.elim_some]

theorem lines_of_ne_root {file : Location} {text : String} (hne : file ≠ h.root)
    (hread : Import.readDocument h.tree file = .ok text) : h.lines file = (Text.lines text).zipIdx 1 := by
  rw [lines, text?, if_neg hne, hread]
  rfl

theorem mem_lines_iff {file : Location} {raw : String} {n : Nat} :
    (raw, n) ∈ h.lines file ↔ ∃ text, h.text? file = some text ∧ (raw, n) ∈ (Text.lines text).zipIdx 1 := by
  unfold lines
  cases h.text? file <;> simp

theorem lines_inj {file : Location} {raw raw' : String} {n : Nat} (hr : (raw, n) ∈ h.lines file)
    (hr' : (raw', n) ∈ h.lines file) : raw = raw' := by
  obtain ⟨text, ht, hm⟩ := mem_lines_iff.1 hr
  obtain ⟨text', ht', hm'⟩ := mem_lines_iff.1 hr'
  obtain rfl : text = text' := Option.some.inj (ht.symm.trans ht')
  rw [List.mk_mem_zipIdx_iff_le_and_getElem?_sub] at hm hm'
  exact Option.some.inj (hm.2.symm.trans hm'.2)

theorem Imports.mem_files {raw : String} {v : Location} (hv : h.Imports raw v) : v ∈ h.tree.files :=
  Import.mem_files_of_locate h.settings h.tree hv.2.1

theorem isPath_singleton_iff {v : Location} : h.IsPath [v] ↔ v = h.root := by
  constructor
  · intro hp
    simpa using hp.head
  · rintro rfl
    exact ⟨rfl, .singleton _, by simp⟩

theorem IsPath.of_append {p q : List Location} (hp : h.IsPath (p ++ q)) (hne : p ≠ []) : h.IsPath p := by
  refine ⟨?_, hp.chain.left_of_append, (List.nodup_append.1 hp.nodup).1⟩
  rw [← List.head?_append_of_ne_nil p hne]
  exact hp.head

theorem isPath_append_singleton_iff {p : List Location} {u v : Location} :
    h.IsPath (p ++ [u] ++ [v]) ↔ h.IsPath (p ++ [u]) ∧ h.Edge u v ∧ v ∉ p ++ [u] := by
  constructor
  · intro hp
    refine ⟨hp.of_append (by simp), ?_, ?_⟩
    · exact (List.isChain_append.1 hp.chain).2.2 u (by simp) v (by simp)
    · have hn := List.nodup_append.1 hp.nodup
      exact fun hv => hn.2.2 v hv v (by simp) rfl
  · rintro ⟨hp, he, hv⟩
    refine ⟨?_, hp.chain.append (.singleton v) ?_, ?_⟩
    · rw [List.head?_append_of_ne_nil _ (by simp)]
      exact hp.head
    · intro x hx y hy
      simp only [List.getLast?_append, List.getLast?_singleton, Option.some_or, Option.mem_def,
        Option.some.injEq, List.head?_cons] at hx hy
      rw [← hx, ← hy]
      exact he
    · rw [List.nodup_append]
      refine ⟨hp.nodup, by simp, ?_⟩
      intro a ha b hb hab
      rw [List.mem_singleton] at hb
      exact hv (hb ▸ hab ▸ ha)

theorem IsPath.eq_nil_of_root {p : List Location} (hp : h.IsPath (p ++ [h.root])) : p = [] := by
  cases p with
  | nil => rfl
  | cons v p =>
      obtain rfl : v = h.root := by simpa using hp.head
      exact absurd (List.mem_append_right p List.mem_cons_self) (List.nodup_cons.1 hp.nodup).1

theorem IsPath.root_mem {p : List Location} (hp : h.IsPath p) : h.root ∈ p :=
  List.mem_of_mem_head? hp.head

theorem IsPath.reaches {p : List Location} {v : Location} (hp : h.IsPath (p ++ [v])) : h.Reaches v := by
  induction p using List.reverseRecOn generalizing v with
  | nil => exact isPath_singleton_iff.1 hp ▸ .refl
  | append_singleton p u ih =>
      obtain ⟨hp, he, _⟩ := isPath_append_singleton_iff.1 hp
      exact (ih hp).tail he

theorem IsPath.reaches_of_mem {p : List Location} {v : Location} (hp : h.IsPath p) (hv : v ∈ p) :
    h.Reaches v := by
  obtain ⟨q, r, rfl⟩ := List.append_of_mem hv
  rw [← List.singleton_append, ← List.append_assoc] at hp
  exact (hp.of_append (by simp)).reaches

/-- Whatever can be reached can be reached without passing a file twice. -/
theorem Reaches.exists_isPath {v : Location} (hv : h.Reaches v) : ∃ p, h.IsPath (p ++ [v]) := by
  induction hv with
  | refl => exact ⟨[], isPath_singleton_iff.2 rfl⟩
  | @tail u v _ he ih =>
      obtain ⟨p, hp⟩ := ih
      -- Where `v` lies on the way to `u`, the way is cut there.
      by_cases hv : v ∈ p ++ [u]
      · obtain ⟨q, r, hq⟩ := List.append_of_mem hv
        refine ⟨q, IsPath.of_append (q := r) ?_ (by simp)⟩
        rw [List.append_assoc, List.singleton_append, ← hq]
        exact hp
      · exact ⟨p ++ [u], isPath_append_singleton_iff.2 ⟨hp, he, hv⟩⟩

theorem Edge.mem_of_lines {files : List Location} {u v : Location} (he : h.Edge u v)
    (hlines : ∀ line ∈ h.lines u, ∀ v ∈ h.tree.files, h.Imports line.1 v → v ∈ files) : v ∈ files := by
  obtain ⟨raw, n, hl, hi⟩ := he
  exact hlines _ hl _ hi.mem_files hi

theorem Reaches.mem_of_closed {files : List Location} (hroot : h.root ∈ files)
    (hclosed : ∀ u ∈ files, ∀ line ∈ h.lines u, ∀ v ∈ h.tree.files, h.Imports line.1 v → v ∈ files)
    {v : Location} (hv : h.Reaches v) : v ∈ files := by
  induction hv with
  | refl => exact hroot
  | tail _ he ih => exact he.mem_of_lines (hclosed _ ih)

theorem Reaches.mem_files {v : Location} (hv : h.Reaches v) : v ∈ h.root :: h.tree.files :=
  hv.mem_of_closed List.mem_cons_self fun _ _ _ _ _ hf _ => List.mem_cons_of_mem _ hf

theorem Searched.of_files (hs : ∀ file ∈ h.root :: h.tree.files, ∀ line ∈ h.lines file, ¬h.Overlong line.1) :
    h.Searched := fun file hfile => hs file hfile.mem_files

theorem FoundAt.readFrom {path : Path} {given : Option String} (hf : h.FoundAt path given)
    (hs : ∀ file ∈ h.root :: h.tree.files, ∀ line ∈ h.lines file, ¬h.Overlong line.1) :
    h.ReadFrom path given := ⟨hf, .of_files hs⟩

theorem mem_pathLengths_iff {file : Location} {k : Nat} :
    k ∈ h.pathLengths file ↔ ∃ p, h.IsPath (p ++ [file]) ∧ p.length = k := by
  constructor
  · rintro ⟨p, hp, hlast, hk⟩
    obtain ⟨q, rfl⟩ := List.getLast?_eq_some_iff.1 hlast
    exact ⟨q, hp, by simpa using hk⟩
  · rintro ⟨p, hp, hk⟩
    exact ⟨p ++ [file], hp, by simp, by simp [hk]⟩

def place (path : String) : Location := (Path.ofString path).names

/-- The document `d` imports `a` and `c`, `a` imports `b`, and `b` imports both of them again. -/
def crossing : Hierarchy where
  settings := ⟨.ofString "/w", .ofString "/w/m", "x", .inclusion⟩
  tree := {
    here := place "/w"
    entries := [
      (place "/w", .directory), (place "/w/m", .directory),
      (place "/w/d", .file "!a\n!c\nD".toUTF8.data.toList),
      (place "/w/m/a", .file "A\n!b".toUTF8.data.toList),
      (place "/w/m/b", .file "!c\n!a".toUTF8.data.toList),
      (place "/w/m/c", .file "C=1".toUTF8.data.toList)]
    nodup := by decide +kernel }
  root := place "/w/d"
  content := "!a\n!c\nD"

theorem crossing_readFrom : crossing.ReadFrom (.ofString "d") none :=
  FoundAt.readFrom ⟨by decide +kernel, by decide +kernel⟩ (by decide +kernel)

theorem crossing_isPath : crossing.IsPath (["/w/d", "/w/m/a", "/w/m/b", "/w/m/c"].map place) where
  head := rfl
  chain := by
    refine .cons_cons ⟨"!a", 1, ?_⟩ (.cons_cons ⟨"!b", 2, ?_⟩ (.cons_cons ⟨"!c", 1, ?_⟩ (.singleton _)))
    · decide +kernel
    · decide +kernel
    · decide +kernel
  nodup := by decide +kernel

theorem crossing_reaches {v : Location} (hv : crossing.Reaches v) :
    v ∈ ["/w/d", "/w/m/a", "/w/m/b", "/w/m/c"].map place :=
  hv.mem_of_closed (by decide +kernel) (by decide +kernel)

end Hierarchy

end LayeredConfig
