import Mathlib.Data.List.Forall2
import LayeredConfig.Proofs.Concur
import LayeredConfig.Proofs.FileTree
import LayeredConfig.Proofs.Hierarchy.Issues
import LayeredConfig.Proofs.Hierarchy.Simulation

namespace LayeredConfig

variable {r : String → String → Prop} {s : Settings} {t t' : FileTree}

def Text.Rewrites (r : String → String → Prop) (text text' : String) : Prop :=
  List.Forall₂ r (lines text) (lines text')

theorem Text.Rewrites.zipIdx {text text' : String} (h : Rewrites r text text') (k : Nat) :
    List.Forall₂ (fun a b => r a.1 b.1 ∧ b.2 = a.2) ((lines text).zipIdx k) ((lines text').zipIdx k) := by
  unfold Rewrites at h
  generalize lines text = ls, lines text' = ls' at h
  induction h generalizing k with
  | nil => exact .nil
  | cons hline _ ih => exact .cons ⟨hline, rfl⟩ (ih (k + 1))

theorem Text.Rewrites.refl (hr : ∀ raw, r raw raw) (text : String) : Rewrites r text text :=
  List.forall₂_same.2 fun raw _ => hr raw

/-- The files of a tree are written otherwise, line by line, and what is not text fails as before. -/
structure FileTree.Rewrites (r : String → String → Prop) (t t' : FileTree) : Prop where
  layout : t.SameLayout t'
  files : ∀ l bytes bytes', t.find? l = some (.file bytes) → t'.find? l = some (.file bytes') →
    Concur (Text.Rewrites r) (FileTree.textOfBytes bytes) (FileTree.textOfBytes bytes')

structure Visit.Rewrites (r : String → String → Prop) (v v' : Visit) : Prop where
  importers : v'.importers = v.importers
  file : v'.file = v.file
  content : Text.Rewrites r v.content v'.content

namespace FileTree.Rewrites

theorem refl (hr : ∀ raw, r raw raw) (t : FileTree) : t.Rewrites r t := by
  refine ⟨⟨rfl, .refl _⟩, fun l bytes bytes' hb hb' => ?_⟩
  obtain rfl := Node.file.inj (Option.some.inj (hb.symm.trans hb'))
  cases FileTree.textOfBytes bytes with
  | error e => exact .error e
  | ok text => exact .ok (.refl hr text)

variable (h : t.Rewrites r t')

include h

theorem readDocument (l : Location) :
    Concur (Text.Rewrites r) (Import.readDocument t l) (Import.readDocument t' l) := by
  refine Concur.mapError ?_ _
  unfold FileTree.readText
  rcases h.layout.readBytes_cases (.ofLocation l) with ⟨e, he, he'⟩ | ⟨l, bytes, bytes', hb, hb', hr, hr'⟩
  · rw [he, he']
    exact .error e
  · rw [hr, hr']
    exact (h.files l bytes bytes' hb hb').mapError _

theorem open? (s : Settings) (active : List Location) (name : String) :
    Concur (fun a b => b.1 = a.1 ∧ Text.Rewrites r a.2 b.2) (Import.open? s t active name)
      (Import.open? s t' active name) := by
  unfold Import.open?
  rw [Import.locate_of_sameLayout h.layout]
  rcases Import.locate s t name with _ | _ | target
  · exact .error _
  · exact .error _
  · have hread := h.readDocument target
    dsimp only
    generalize Import.readDocument t target = x, Import.readDocument t' target = y at hread
    cases hread with
    | error e => exact .error _
    | ok htext =>
        by_cases hactive : target ∈ active
        · simp only [if_pos hactive]
          exact .error _
        · simp only [if_neg hactive]
          exact .ok ⟨rfl, htext⟩

variable {q : List Item → List Item → Prop} {v v' : Visit} {raw raw' : String} {n : Nat}

theorem abreast_of_isImport (hv : v.Rewrites r v') (hi : Line.IsImport raw) (hi' : Line.IsImport raw')
    (hopen : Import.open? s t v.active (Import.nameOfLine (Text.trim raw')) =
      Import.open? s t v.active (Import.nameOfLine (Text.trim raw)))
    (hitem : ∀ obstruction : Obstruction, q [obstruction.item s v.file n (Text.trim raw)]
      [obstruction.item s v.file n (Text.trim raw')]) :
    Abreast q (Visit.Rewrites r) v v' (v.reading s t (raw, n)) (v'.reading s t' (raw', n)) := by
  obtain ⟨_, _, content⟩ := v
  obtain ⟨importers, file, content'⟩ := v'
  obtain ⟨rfl, rfl, _⟩ := hv
  have hread := h.open? s (importers ++ [file]) (Import.nameOfLine (Text.trim raw'))
  simp only [Visit.active] at hopen
  rw [hopen] at hread
  simp only [Visit.reading]
  rw [Stream.readLine_of_isImport hi, Stream.readLine_of_isImport hi']
  generalize Import.open? s t (importers ++ [file]) _ = x,
    Import.open? s t' (importers ++ [file]) _ = y at hread
  cases hread with
  | error e => exact .items (hitem e)
  | @ok a b hab =>
      obtain ⟨target, text⟩ := a
      obtain ⟨_, text'⟩ := b
      obtain ⟨rfl, htext⟩ := hab
      exact .file ⟨rfl, rfl, htext⟩

theorem abreast_self (hq : ∀ xs, q xs xs) (hv : v.Rewrites r v') :
    Abreast q (Visit.Rewrites r) v v' (v.reading s t (raw, n)) (v'.reading s t' (raw, n)) := by
  by_cases hblank : Text.trim raw = ""
  · simp only [Visit.reading, Stream.readLine_of_blank hblank]
    exact .items (hq [])
  rcases Line.isContent_or_isImport hblank with hc | hi
  · simp only [Visit.reading, Stream.readLine_of_isContent hc, hv.importers, hv.file]
    exact .items (hq _)
  · exact h.abreast_of_isImport hv hi hi rfl fun _ => hq _

/-- It is enough to look at the lines that are written otherwise. -/
theorem simulation (hq : ∀ xs, q xs xs)
    (happend : ∀ {xs xs' ys ys'}, q xs xs' → q ys ys' → q (xs ++ ys) (xs' ++ ys'))
    (hline : ∀ {v v' : Visit} {raw raw' : String}, v.Rewrites r v' → r raw raw' → raw' = raw ∨
      ∀ n, Abreast q (Visit.Rewrites r) v v' (v.reading s t (raw, n)) (v'.reading s t' (raw', n))) :
    Simulation s t s t' q (Visit.Rewrites r) where
  nil := hq []
  append := happend
  step := by
    intro v v' hv
    refine (hv.content.zipIdx 1).imp ?_
    rintro ⟨raw, _⟩ ⟨raw', n⟩ ⟨hr, rfl⟩
    rcases hline hv hr with rfl | habreast
    · exact h.abreast_self hq hv
    · exact habreast n

variable {given given' : Option String}

theorem locate (path : Path) : Document.locate t' path = Document.locate t path := by
  rw [Document.locate, Document.locate, h.layout.canonical]

theorem text (hg : Option.Rel (Text.Rewrites r) given given') (document : Location) :
    Concur (Text.Rewrites r) (Document.text t document given) (Document.text t' document given') := by
  cases hg with
  | none => exact (h.readDocument document).mapError _
  | some hg => exact .ok hg

theorem hierarchy {q : Hierarchy → Hierarchy → Prop} (hg : Option.Rel (Text.Rewrites r) given given')
    (hq : ∀ root content content', Text.Rewrites r content content' →
      q ⟨s, t, root, content⟩ ⟨s, t', root, content'⟩) (path : Path) :
    Concur q (Document.hierarchy s t path given) (Document.hierarchy s t' path given') := by
  rw [Document.hierarchy, Document.hierarchy, h.locate]
  cases Document.locate t path with
  | error e => exact .error e
  | ok document =>
      exact (h.text hg document).bind fun content content' hc => .ok (hq document content content' hc)

end FileTree.Rewrites

end LayeredConfig
