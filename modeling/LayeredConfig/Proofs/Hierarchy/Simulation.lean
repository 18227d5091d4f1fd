import LayeredConfig.Proofs.Hierarchy.Expansion

namespace LayeredConfig

/-- Two lines of `v` and `v'` stand for items that `q` relates, or open visits that `r` relates. -/
inductive Abreast (q : List Item → List Item → Prop) (r : Visit → Visit → Prop) (v v' : Visit) :
    Stream.Reading → Stream.Reading → Prop
  | items {xs xs' : List Item} (h : q xs xs') : Abreast q r v v' (.items xs) (.items xs')
  | file {target target' : Location} {content content' : String}
      (h : r ⟨v.active, target, content⟩ ⟨v'.active, target', content'⟩) :
      Abreast q r v v' (.file target content) (.file target' content')

structure Simulation (s : Settings) (t : FileTree) (s' : Settings) (t' : FileTree)
    (q : List Item → List Item → Prop) (r : Visit → Visit → Prop) : Prop where
  nil : q [] []
  append : ∀ {xs xs' ys ys'}, q xs xs' → q ys ys' → q (xs ++ ys) (xs' ++ ys')
  step : ∀ {v v'}, r v v' → List.Forall₂
    (fun line line' => Abreast q r v v' (v.reading s t line) (v'.reading s' t' line')) v.lines v'.lines

namespace Visit

variable {s s' : Settings} {t t' : FileTree} {v v' : Visit} {line line' : String × Nat}

def itemsOf (s : Settings) (t : FileTree) (v : Visit) (line : String × Nat) : List Item :=
  Stream.expandLine s t v.importers v.file line.1 line.2

theorem items_eq_flatMap (v : Visit) : v.items s t = v.lines.flatMap (v.itemsOf s t) :=
  Stream.expand_eq_flatMap _

theorem itemsOf_of_items {xs : List Item} (hr : v.reading s t line = .items xs) :
    v.itemsOf s t line = xs := by
  rw [itemsOf, Stream.expandLine, ← reading, hr]

theorem itemsOf_of_file {target : Location} {content : String}
    (hr : v.reading s t line = .file target content) :
    v.itemsOf s t line = items s t ⟨v.active, target, content⟩ := by
  rw [itemsOf, Stream.expandLine, ← reading, hr, items, active]

end Visit

open Visit in
theorem Simulation.items {s s' : Settings} {t t' : FileTree} {q : List Item → List Item → Prop}
    {r : Visit → Visit → Prop} (h : Simulation s t s' t' q r) {v v' : Visit} (hv : r v v') :
    q (v.items s t) (v'.items s' t') := by
  induction hn : Stream.unentered t v.active using Nat.strong_induction_on generalizing v v' with
  | _ n ih =>
      have hlines := h.step hv
      rw [items_eq_flatMap, items_eq_flatMap]
      generalize v.lines = lines, v'.lines = lines' at hlines
      induction hlines with
      | nil => exact h.nil
      | @cons line line' lines lines' hline _ ihlines =>
          rw [List.flatMap_cons, List.flatMap_cons]
          refine h.append ?_ ihlines
          generalize hr : v.reading s t line = x, hr' : v'.reading s' t' line' = x' at hline
          cases hline with
          | items hq => rwa [itemsOf_of_items hr, itemsOf_of_items hr']
          | file hopen =>
              rw [itemsOf_of_file hr, itemsOf_of_file hr']
              obtain ⟨hfile, hnew⟩ := Stream.mem_files_of_readLine s t hr
              exact ih _ (hn ▸ Stream.unentered_lt t hfile hnew) hopen rfl

end LayeredConfig
