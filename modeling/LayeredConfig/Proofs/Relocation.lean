import Mathlib.Data.List.Forall2
import Mathlib.Data.List.InsertIdx
import LayeredConfig.Proofs.Duplicate
import LayeredConfig.Proofs.Effective
import LayeredConfig.Proofs.Override
import LayeredConfig.Proofs.Precedence

namespace LayeredConfig

/-- All that a directive says stays, and so does its file; its line and its depth may change. -/
structure Directive.Relocates (f : Directive → Directive) : Prop where
  file : ∀ d, (f d).file = d.file
  kind : ∀ d, (f d).kind = d.kind
  key : ∀ d, (f d).key = d.key
  value : ∀ d, (f d).value = d.value
  text : ∀ d, (f d).text = d.text

namespace Precedence

variable {f : Directive → Directive} {ds : List Directive}

theorem eraseDupsBy_map (hf : ∀ a ∈ ds, ∀ b ∈ ds, sameLine (f a) (f b) = sameLine a b) :
    (ds.map f).eraseDupsBy sameLine = (ds.eraseDupsBy sameLine).map f := by
  induction ds using line_induction with
  | nil => simp
  | cons d ds ih =>
      have hsub : ∀ e ∈ ds.filter (fun e => sameLine e d = false), e ∈ d :: ds :=
        fun e he => List.mem_cons_of_mem d (List.mem_of_mem_filter he)
      have hfilter : (ds.map f).filter (fun e => sameLine e (f d) = false) =
          (ds.filter fun e => sameLine e d = false).map f := by
        rw [List.filter_map]
        congr 1
        refine List.filter_congr fun e he => ?_
        rw [Function.comp_apply, hf e (List.mem_cons_of_mem d he) d List.mem_cons_self]
      rw [List.map_cons, List.eraseDupsBy_cons, List.eraseDupsBy_cons, List.map_cons, hfilter,
        ih fun a ha b hb => hf a (hsub a ha) b (hsub b hb)]

theorem order_map (hprecedes : ∀ a ∈ ds, ∀ b ∈ ds, precedes (f a) (f b) = precedes a b)
    (hline : ∀ a ∈ ds, ∀ b ∈ ds, sameLine (f a) (f b) = sameLine a b) :
    order (ds.map f) = (order ds).map f := by
  have hsort : (ds.map f).mergeSort precedes = (ds.mergeSort precedes).map f :=
    (List.map_mergeSort fun a ha b hb => (hprecedes a ha b hb).symm).symm
  rw [order, order, hsort, eraseDupsBy_map]
  simpa only [List.mem_mergeSort] using hline

end Precedence

namespace Directive.Relocates

variable {f : Directive → Directive} {r : Issue → Issue → Prop} {root : Path} {ds es : List Directive}
  {d : Directive}

theorem filter_map {p : Directive → Bool} (hp : ∀ d, p (f d) = p d) (ds : List Directive) :
    (ds.map f).filter p = (ds.filter p).map f := by
  rw [List.filter_map, show p ∘ f = p from funext hp]

theorem forall₂_toList {x y : Option Issue} (h : Option.Rel r x y) : List.Forall₂ r x.toList y.toList := by
  cases h with
  | none => exact .nil
  | some h => exact .cons h .nil

theorem group_map {found : List Directive} (hr : ∀ d ∈ found, ∀ others,
      r (Duplicate.issueAt root others d) (Duplicate.issueAt root (others.map f) (f d))) :
    List.Forall₂ r (Duplicate.group root found) (Duplicate.group root (found.map f)) := by
  unfold Duplicate.group
  rw [List.length_map]
  split
  · exact .nil
  · refine List.forall₂_iff_get.2 ⟨by simp, fun n hn hn' => ?_⟩
    have hn : n < found.length := by simpa using hn
    simpa [List.eraseIdx_map] using hr found[n] (List.getElem_mem hn) (found.eraseIdx n)

variable (hf : Relocates f)

include hf

theorem config_map
    (happlies : ∀ a ∈ ds, ∀ b ∈ ds, Effective.appliesBefore (f a) (f b) = Effective.appliesBefore a b) :
    Effective.config (ds.map f) = Effective.config ds := by
  have hstage : Effective.stage (ds.map f) = (Effective.stage ds).map f :=
    (List.map_mergeSort fun a ha b hb => (happlies a ha b hb).symm).symm
  rw [Effective.config, hstage, List.foldl_map, Effective.config]
  congr 1
  funext c d
  rw [Config.apply, Config.apply, hf.kind, hf.key, hf.value]

theorem any_excludes (d : Directive) (es : List Directive) :
    (es.map f).any (Override.excludes (f d)) = es.any (Override.excludes d) := by
  rw [List.any_map]
  congr 1
  funext e
  rw [Function.comp_apply, Override.excludes, Override.excludes, hf.kind, hf.file, hf.file]

theorem judge_map (hredefined : ∀ p, r (Override.redefined root p d) (Override.redefined root (f p) (f d)))
    (hunnecessary : r (Override.unnecessary root d) (Override.unnecessary root (f d)))
    (earlier : List Directive) :
    Option.Rel r (Override.judge root earlier d) (Override.judge root (earlier.map f) (f d)) := by
  have hfind : (earlier.map f).find? (·.kind = .inclusion) =
      (earlier.find? (·.kind = .inclusion)).map f := by
    rw [List.find?_map]
    simp only [Function.comp_def, hf.kind]
  have hsince : (earlier.map f).takeWhile (·.kind ≠ .inclusion) =
      (earlier.takeWhile (·.kind ≠ .inclusion)).map f := by
    rw [List.takeWhile_map]
    simp only [Function.comp_def, hf.kind]
  unfold Override.judge
  rw [hfind, hsince, hf.any_excludes, hf.kind]
  split
  · exact .none
  · cases earlier.find? (·.kind = .inclusion) with
    | none => exact .none
    | some p =>
        simp only [Option.map_some, hf.any_excludes, hf.value]
        split
        · exact .some (hredefined p)
        · split
          · exact .some hunnecessary
          · exact .none

theorem issuesFrom_map
    (hredefined : ∀ d ∈ ds, ∀ p, r (Override.redefined root p d) (Override.redefined root (f p) (f d)))
    (hunnecessary : ∀ d ∈ ds, r (Override.unnecessary root d) (Override.unnecessary root (f d)))
    (earlier : List Directive) : List.Forall₂ r (Override.issuesFrom root earlier ds)
      (Override.issuesFrom root (earlier.map f) (ds.map f)) := by
  induction ds generalizing earlier with
  | nil => exact .nil
  | cons d ds ih =>
      obtain ⟨hr, hredefined⟩ := List.forall_mem_cons.1 hredefined
      obtain ⟨hu, hunnecessary⟩ := List.forall_mem_cons.1 hunnecessary
      have hkey : (earlier.map f).filter (·.key = (f d).key) = (earlier.filter (·.key = d.key)).map f := by
        rw [hf.key]
        exact filter_map (fun e => by rw [hf.key]) earlier
      rw [List.map_cons, Override.issuesFrom, Override.issuesFrom, hkey, ← List.map_cons]
      exact List.rel_append (forall₂_toList (hf.judge_map hr hu _)) (ih hredefined hunnecessary (d :: earlier))

theorem duplicates_map (hr : ∀ d ∈ ds, ∀ others,
      r (Duplicate.issueAt root others d) (Duplicate.issueAt root (others.map f) (f d))) :
    List.Forall₂ r (Duplicate.issues root ds) (Duplicate.issues root (ds.map f)) := by
  have hjudged : (ds.map f).filter (·.isJudged) = (ds.filter (·.isJudged)).map f :=
    filter_map (fun e => by rw [isJudged, isJudged, hf.kind]) ds
  have htexts : ((ds.filter (·.isJudged)).map f).map (·.text) = (ds.filter (·.isJudged)).map (·.text) := by
    simp only [List.map_map, Function.comp_def, hf.text]
  simp only [Duplicate.issues, hjudged, htexts]
  refine List.rel_flatMap (List.forall₂_same.2 fun _ _ => rfl) ?_
  rintro text _ rfl
  dsimp only
  rw [filter_map fun e => by rw [hf.text]]
  refine group_map fun d hd => hr d ?_
  exact List.mem_of_mem_filter (List.mem_of_mem_filter hd)

end Directive.Relocates

end LayeredConfig
