import Mathlib.Order.ConditionallyCompleteLattice.Basic
import Mathlib.Data.Int.ConditionallyCompleteOrder
import LayeredConfig.Proofs.Concur
import LayeredConfig.Proofs.Hierarchy.Issues
import LayeredConfig.Proofs.Hierarchy.Renumbering
import LayeredConfig.Proofs.Relocation

namespace LayeredConfig

namespace Text

/-- White space is put around lines or taken away there, and blank lines are put in. -/
inductive Relaid : List String → List String → Prop
  | nil : Relaid [] []
  | line {raw raw' : String} {ls ls' : List String} (htrim : trim raw' = trim raw) (h : Relaid ls ls') :
      Relaid (raw :: ls) (raw' :: ls')
  | blank {raw' : String} {ls ls' : List String} (hblank : trim raw' = "") (h : Relaid ls ls') :
      Relaid ls (raw' :: ls')

/-- The same with numbered lines, where `ρ` gives each line its new number. -/
inductive Spread (ρ : Int → Int) : List (String × Nat) → List (String × Nat) → Prop
  | nil : Spread ρ [] []
  | line {raw raw' : String} {n n' : Nat} {ls ls' : List (String × Nat)} (htrim : trim raw' = trim raw)
      (hn : (n' : Int) = ρ n) (h : Spread ρ ls ls') : Spread ρ ((raw, n) :: ls) ((raw', n') :: ls')
  | blank {raw' : String} {n' : Nat} {ls ls' : List (String × Nat)} (hblank : trim raw' = "")
      (h : Spread ρ ls ls') : Spread ρ ls ((raw', n') :: ls')

variable {ρ σ : Int → Int}

theorem Spread.congr {ls ls' : List (String × Nat)} (h : Spread ρ ls ls')
    (hσ : ∀ line ∈ ls, σ line.2 = ρ line.2) : Spread σ ls ls' := by
  induction h with
  | nil => exact .nil
  | line htrim hn _ ih =>
      obtain ⟨hline, hσ⟩ := List.forall_mem_cons.1 hσ
      exact .line htrim (hn.trans hline.symm) (ih hσ)
  | blank hblank _ ih => exact .blank hblank (ih hσ)

theorem strictMono_splice (hρ : StrictMono ρ) (k k' : Int) (hk : k' < ρ (k + 1)) :
    StrictMono fun n => if n ≤ k then n + (k' - k) else ρ n := by
  intro a b hab
  dsimp only
  by_cases hb : b ≤ k
  · rw [if_pos (by omega), if_pos hb]
    omega
  · rw [if_neg hb]
    split
    · have hle : ρ (k + 1) ≤ ρ b := hρ.monotone (by omega)
      omega
    · exact hρ hab

theorem Relaid.exists_spread {ls ls' : List String} (h : Relaid ls ls') (k k' : Nat) :
    ∃ ρ : Int → Int, StrictMono ρ ∧ (k' : Int) ≤ ρ k ∧ Spread ρ (ls.zipIdx k) (ls'.zipIdx k') := by
  induction h generalizing k k' with
  | nil => exact ⟨(· + ((k' : Int) - k)), fun a b hab => Int.add_lt_add_right hab _, by dsimp only; omega, .nil⟩
  | @line raw raw' ls ls' htrim _ ih =>
      obtain ⟨ρ, hρ, hk, hs⟩ := ih (k + 1) (k' + 1)
      rw [Int.natCast_succ, Int.natCast_succ] at hk
      refine ⟨_, strictMono_splice hρ k k' (by omega), ?_, .line htrim ?_ (hs.congr ?_)⟩
      · rw [if_pos (Int.le_refl _)]
        omega
      · rw [if_pos (Int.le_refl _)]
        omega
      · intro line hline
        have hlt : k + 1 ≤ line.2 := List.le_snd_of_mem_zipIdx hline
        exact if_neg (by omega)
  | blank hblank _ ih =>
      obtain ⟨ρ, hρ, hk, hs⟩ := ih k (k' + 1)
      exact ⟨ρ, hρ, by omega, .blank hblank hs⟩

end Text

namespace Directive

variable {ρ : Int → Int}

@[simp]
theorem renumber_depth (ρ : Int → Int) (d : Directive) : (d.renumber ρ).depth = d.depth := by
  unfold renumber
  split <;> rfl

theorem relocates_renumber (ρ : Int → Int) : Relocates (renumber ρ) := by
  constructor
  all_goals
    intro d
    unfold renumber
    split <;> rfl

theorem renumber_line (ρ : Int → Int) (d : Directive) :
    (d.renumber ρ).line = if d.depth = 0 then ρ d.line else d.line := by
  unfold renumber
  split <;> rfl

theorem precedes_renumber (hρ : StrictMono ρ) (a b : Directive) :
    Precedence.precedes (a.renumber ρ) (b.renumber ρ) = Precedence.precedes a b := by
  unfold Precedence.precedes
  by_cases hdepth : a.depth = b.depth
  · simp only [renumber_depth, renumber_line, (relocates_renumber ρ).file, hdepth]
    split
    · simp only [hρ.lt_iff_lt, hρ.injective.eq_iff]
    · rfl
  · simp [hdepth]

theorem sameLine_renumber (hρ : StrictMono ρ) {root : Path} {a b : Directive}
    (ha : a.depth = 0 ↔ a.file = root) (hb : b.depth = 0 ↔ b.file = root) :
    Precedence.sameLine (a.renumber ρ) (b.renumber ρ) = Precedence.sameLine a b := by
  simp only [Precedence.sameLine, anchor, Prod.mk.injEq, decide_eq_decide, (relocates_renumber ρ).file,
    renumber_line, ha, hb]
  refine and_congr_right fun hfile => ?_
  rw [hfile]
  split
  · rw [hρ.injective.eq_iff]
  · rfl

end Directive

/-- One issue of one line, which has its new number if it is a line of the document. -/
structure Issue.Renumbered (root : Location) (ρ : Int → Int) (i i' : Issue) : Prop where
  kind : i'.kind = i.kind
  severity : i'.severity = i.severity
  file : i'.file = i.file
  key : i'.key = i.key
  line : i'.line = if i.file = .ofLocation root then ρ i.line else i.line

namespace Issue.Renumbered

variable {root : Location}

theorem renumber (ρ : Int → Int) (i : Issue) : Renumbered root ρ i (i.renumber root ρ) := by
  unfold Issue.renumber
  split
  · rename_i hfile
    exact ⟨rfl, rfl, rfl, rfl, (if_pos hfile).symm⟩
  · rename_i hfile
    exact ⟨rfl, rfl, rfl, rfl, (if_neg hfile).symm⟩

theorem ofDirective {d : Directive} (hd : d.depth = 0 ↔ d.file = .ofLocation root) (ρ : Int → Int)
    (kind : IssueKind) (message message' : String) :
    Renumbered root ρ (.ofDirective d kind message) (.ofDirective (d.renumber ρ) kind message') := by
  have hline : (d.renumber ρ).line = if d.file = .ofLocation root then ρ d.line else d.line := by
    simp only [Directive.renumber_line, hd]
  exact ⟨rfl, rfl, (Directive.relocates_renumber ρ).file d, (Directive.relocates_renumber ρ).key d, hline⟩

end Issue.Renumbered

namespace Stream

variable {s : Settings} {t : FileTree} {ρ : Int → Int}

theorem flatMap_spread (root : Location) {ls ls' : List (String × Nat)} (h : Text.Spread ρ ls ls') :
    ls'.flatMap (fun line => expandLine s t [] root line.1 line.2) =
      (ls.flatMap fun line => expandLine s t [] root line.1 line.2).map (Item.renumber root ρ) := by
  induction h with
  | nil => rfl
  | @line raw raw' n n' ls ls' htrim hn _ ih =>
      have hraw : expandLine s t [] root raw' n' = expandLine s t [] root raw n' := by
        rw [expandLine, expandLine, readLine_congr htrim]
      rw [List.flatMap_cons, List.flatMap_cons, List.map_append, ih, hraw, expandLine_renumber root raw hn]
  | @blank raw' n' ls ls' hblank _ ih =>
      have hnone : expandLine s t [] root raw' n' = [] := by rw [expandLine, readLine_of_blank hblank]
      rw [List.flatMap_cons, hnone, List.nil_append, ih]

def renumber (ρ : Int → Int) (st : Stream) : Stream where
  root := st.root
  directives := st.directives.map (Directive.renumber ρ)
  issues := st.issues.map (Issue.renumber st.root ρ)

theorem ofText_spread {content content' : String}
    (h : Text.Spread ρ ((Text.lines content).zipIdx 1) ((Text.lines content').zipIdx 1)) (root : Location) :
    ofText s t root content' = (ofText s t root content).renumber ρ ∧
      failure? s t root content' = failure? s t root content := by
  have hitems : items s t root content' = (items s t root content).map (Item.renumber root ρ) := by
    rw [items, items, expand_eq_flatMap, expand_eq_flatMap, flatMap_spread root h]
  simp only [ofText, ofItems, failure?, hitems, Item.filterMap_directive?_renumber,
    Item.filterMap_issue?_renumber, Item.findSome?_failure?_renumber, renumber, and_self]

end Stream

namespace Hierarchy

variable {h h' : Hierarchy} {ρ : Int → Int}

structure Renumbers (h h' : Hierarchy) (ρ : Int → Int) : Prop where
  settings : h'.settings = h.settings
  stream : h'.stream = h.stream.renumber ρ
  strictMono : StrictMono ρ

namespace Renumbers

variable (hr : Renumbers h h' ρ)

include hr

theorem directives : h'.directives = h.directives.map (Directive.renumber ρ) := by
  rw [Hierarchy.directives, hr.stream]
  refine Precedence.order_map (fun a _ b _ => Directive.precedes_renumber hr.strictMono a b) ?_
  intro a ha b hb
  exact Directive.sameLine_renumber hr.strictMono (stream_depth_eq_zero_iff ha) (stream_depth_eq_zero_iff hb)

theorem config : Effective.config h'.directives = Effective.config h.directives := by
  rw [hr.directives]
  refine (Directive.relocates_renumber ρ).config_map fun a _ b _ => ?_
  simp only [Effective.appliesBefore, Directive.renumber_depth, (Directive.relocates_renumber ρ).kind]

theorem issues : List.Forall₂ (Issue.Renumbered h.root ρ) h.issues h'.issues := by
  have hstream : List.Forall₂ (Issue.Renumbered h.root ρ) h.stream.issues
      (h.stream.issues.map (Issue.renumber h.root ρ)) :=
    List.forall₂_map_right_iff.2 (List.forall₂_same.2 fun i _ => .renumber ρ i)
  have hdocument : ∀ d ∈ h.directives, d.depth = 0 ↔ d.file = .ofLocation h.root :=
    fun d hd => depth_eq_zero_iff hd
  have hoverride : List.Forall₂ (Issue.Renumbered h.root ρ) (Override.issues h.settings.root h.directives)
      (Override.issues h.settings.root (h.directives.map (Directive.renumber ρ))) :=
    (Directive.relocates_renumber ρ).issuesFrom_map (fun d hd _ => .ofDirective (hdocument d hd) ρ _ _ _)
      (fun d hd => .ofDirective (hdocument d hd) ρ _ _ _) []
  have hduplicate : List.Forall₂ (Issue.Renumbered h.root ρ) (Duplicate.issues h.settings.root h.directives)
      (Duplicate.issues h.settings.root (h.directives.map (Directive.renumber ρ))) :=
    (Directive.relocates_renumber ρ).duplicates_map fun d hd _ => .ofDirective (hdocument d hd) ρ _ _ _
  rw [issues_eq, issues_eq, hr.settings, hr.directives, hr.stream]
  exact List.rel_append (List.rel_append hstream hoverride) hduplicate

end Renumbers

end Hierarchy

namespace Document

/-- However a document is laid out, it comes to the same configuration, and to the same issues in the same
order, each at the number that its line has got. -/
theorem layout_has_no_effect {text text' : String} (h : Text.Relaid (Text.lines text) (Text.lines text')) :
    ∃ ρ : Int → Int, StrictMono ρ ∧
      Text.Spread ρ ((Text.lines text).zipIdx 1) ((Text.lines text').zipIdx 1) ∧
      ∀ s t path, config s t path (some text') = config s t path (some text) ∧
        Concur (fun is is' => ∃ root, t.canonical path = .ok root ∧
          List.Forall₂ (Issue.Renumbered root ρ) is is')
          (issues s t path (some text)) (issues s t path (some text')) := by
  obtain ⟨ρ, hρ, -, hs⟩ := h.exists_spread 1 1
  refine ⟨ρ, hρ, hs, fun s t path => ?_⟩
  rw [config_some, config_some, issues_some, issues_some, locate]
  cases t.canonical path with
  | error e => exact ⟨rfl, .error _⟩
  | ok root =>
      have hr : Hierarchy.Renumbers ⟨s, t, root, text⟩ ⟨s, t, root, text'⟩ ρ :=
        ⟨rfl, (Stream.ofText_spread hs root).1, hρ⟩
      have hfailure : Hierarchy.failure? ⟨s, t, root, text'⟩ = Hierarchy.failure? ⟨s, t, root, text⟩ :=
        (Stream.ofText_spread hs root).2
      change Hierarchy.settle _ _ = Hierarchy.settle _ _ ∧
        Concur _ (Hierarchy.settle _ _) (Hierarchy.settle _ _)
      exact ⟨Hierarchy.settle_congr hfailure hr.config,
        Hierarchy.concur_settle hfailure ⟨root, rfl, hr.issues⟩⟩

open Hierarchy (layered)

/-- Line 3 of the document becomes line 5, and line 6 becomes line 8. -/
def relaidText : String := "\n  !mid\n-A \n\t\nA=1\n-C\nC=1\n B=2"

theorem layered_relaid : Text.Relaid (Text.lines layered.content) (Text.lines relaidText) := by
  have hlines : Text.lines layered.content = ["!mid", "-A", "A=1", "-C", "C=1", "B=2"] := by decide +kernel
  have hrelaid : Text.lines relaidText = ["", "  !mid", "-A ", "\t", "A=1", "-C", "C=1", " B=2"] := by
    decide +kernel
  rw [hlines, hrelaid]
  refine .blank (by decide +kernel) (.line (by decide +kernel) (.line (by decide +kernel) ?_))
  exact .blank (by decide +kernel) (.line rfl (.line rfl (.line rfl (.line (by decide +kernel) .nil))))

theorem layered_layout_has_no_effect :
    Text.Relaid (Text.lines layered.content) (Text.lines relaidText) ∧
      config layered.settings layered.tree (.ofString "d") (some relaidText) =
        config layered.settings layered.tree (.ofString "d") (some layered.content) ∧
      ∃ ρ : Int → Int, StrictMono ρ ∧
        Concur (fun is is' => ∃ root, layered.tree.canonical (.ofString "d") = .ok root ∧
            List.Forall₂ (Issue.Renumbered root ρ) is is')
          (issues layered.settings layered.tree (.ofString "d") (some layered.content))
          (issues layered.settings layered.tree (.ofString "d") (some relaidText)) := by
  obtain ⟨ρ, hρ, -, hsame⟩ := layout_has_no_effect layered_relaid
  obtain ⟨hconfig, hissues⟩ := hsame layered.settings layered.tree (.ofString "d")
  exact ⟨layered_relaid, hconfig, ρ, hρ, hissues⟩

end Document

end LayeredConfig
