import LayeredConfig.Proofs.FileTree

namespace LayeredConfig

namespace Path

variable {p : Path}

/-- All steps back come first, and a path from the root has none. -/
def IsNormal (p : Path) : Prop :=
  ∃ k names, p.names = List.replicate k .up ++ names ∧ Name.up ∉ names ∧ (¬p.isRelative → k = 0)

theorem isNormal_of_nil (h : p.names = []) : p.IsNormal :=
  ⟨0, [], h, List.not_mem_nil, fun _ => rfl⟩

theorem IsNormal.cases (hp : p.IsNormal) :
    (∃ inner last, p.names = inner ++ [last] ∧ last ≠ .up ∧ IsNormal { p with names := inner }) ∨
      (p.isRelative ∧ ∃ k, p.names = List.replicate k .up) ∨ ¬p.isRelative ∧ p.names = [] := by
  obtain ⟨k, names, hnames, hup, hk⟩ := hp
  rcases List.eq_nil_or_concat names with rfl | ⟨inner, last, rfl⟩
  · rw [List.append_nil] at hnames
    by_cases hrel : p.isRelative
    · exact .inr (.inl ⟨hrel, k, hnames⟩)
    · rw [hk hrel, List.replicate_zero] at hnames
      exact .inr (.inr ⟨hrel, hnames⟩)
  · rw [List.concat_eq_append] at hnames hup
    rw [List.mem_append, List.mem_singleton, not_or] at hup
    exact .inl ⟨_, last, by rw [hnames, List.append_assoc], Ne.symm hup.2, k, inner, rfl, hup.1, hk⟩

theorem IsNormal.concat {name : Name} (hp : p.IsNormal) (hname : name ≠ .up) :
    IsNormal { p with names := p.names ++ [name] } := by
  obtain ⟨k, names, hnames, hup, hk⟩ := hp
  refine ⟨k, names ++ [name], by rw [hnames, List.append_assoc], ?_, hk⟩
  rw [List.mem_append, List.mem_singleton, not_or]
  exact ⟨hup, Ne.symm hname⟩

theorem step_of_ne_up {name : Name} (hname : name ≠ .up) : p.step name = { p with names := p.names ++ [name] } :=
  if_neg fun h => hname h.1

theorem step_up_of_concat {inner : List Name} {last : Name} (hnames : p.names = inner ++ [last])
    (hlast : last ≠ .up) : p.step .up = { p with names := inner } := by
  have hback : ¬(p.isRelative ∧ p.names.getLast?.all (· = .up)) := fun h => by
    simp [hnames, hlast] at h
  rw [step, if_pos ⟨rfl, hback⟩, hnames, List.dropLast_concat]

theorem step_up_of_replicate {k : Nat} (hrel : p.isRelative) (hnames : p.names = List.replicate k .up) :
    p.step .up = { p with names := p.names ++ [.up] } := by
  have hlast : p.names.getLast?.all (· = .up) := by
    rw [hnames]
    cases k <;> simp [List.getLast?_replicate]
  exact if_neg fun h => h.2 ⟨hrel, hlast⟩

theorem step_up_of_nil (hrel : ¬p.isRelative) (hnames : p.names = []) : p.step .up = p := by
  rw [step, if_pos ⟨rfl, fun h => hrel h.1⟩, hnames, List.dropLast_nil, ← hnames]

end Path

def Node.isPlain : Node → Bool
  | .link target => target.steps.all fun step => '\x00' ∉ step.name.text.toList
  | _ => true

namespace FileTree

variable {t : FileTree} {p : Path} {l : Location} {name : Name}

theorem locate_concat (t : FileTree) (p : Path) (name : Name) :
    t.locate { p with names := p.names ++ [name] } =
      if name = .up then (t.locate p).dropLast else t.locate p ++ [name] :=
  List.foldl_append ..

theorem step_of_isNormal (t : FileTree) (hp : p.IsNormal) (name : Name) :
    (p.step name).IsNormal ∧
      t.locate (p.step name) = if name = .up then (t.locate p).dropLast else t.locate p ++ [name] := by
  by_cases hname : name = .up
  · subst hname
    rw [if_pos rfl]
    obtain ⟨inner, last, hnames, hlast, hinner⟩ | ⟨hrel, k, hnames⟩ | ⟨hrel, hnames⟩ := hp.cases
    · have hlocate := t.locate_concat { p with names := inner } last
      rw [if_neg hlast, ← hnames] at hlocate
      rw [Path.step_up_of_concat hnames hlast, hlocate, List.dropLast_concat]
      exact ⟨hinner, rfl⟩
    · rw [Path.step_up_of_replicate hrel hnames, locate_concat, if_pos rfl]
      refine ⟨⟨k + 1, [], ?_, List.not_mem_nil, fun h => absurd hrel h⟩, rfl⟩
      rw [hnames, List.append_nil, List.replicate_succ']
    · have hlocate : t.locate p = [] := by rw [locate, hnames, if_neg hrel, List.foldl_nil]
      rw [Path.step_up_of_nil hrel hnames, hlocate]
      exact ⟨hp, rfl⟩
  · rw [Path.step_of_ne_up hname]
    exact ⟨hp.concat hname, t.locate_concat p name⟩

/-- No link is on the way to a location, nor at its end, and its names can be looked up. -/
structure Direct (t : FileTree) (l : Location) : Prop where
  links : ∀ m, m <+: l → ∀ link, t.find? m ≠ some (.link link)
  names : ∀ name ∈ l, name ≠ .up ∧ '\x00' ∉ name.text.toList

namespace Direct

theorem nil : t.Direct [] := by
  refine ⟨fun m hm link hlink => ?_, fun _ h => absurd h List.not_mem_nil⟩
  rw [List.prefix_nil.1 hm] at hlink
  cases hlink

theorem of_prefix {m : Location} (h : t.Direct l) (hm : m <+: l) : t.Direct m :=
  ⟨fun n hn => h.links n (hn.trans hm), fun name hname => h.names name (hm.subset hname)⟩

theorem concat (h : t.Direct l) (hname : name ≠ .up ∧ '\x00' ∉ name.text.toList)
    (hlink : ∀ link, t.find? (l ++ [name]) ≠ some (.link link)) : t.Direct (l ++ [name]) := by
  constructor
  · intro m hm
    rcases List.prefix_concat_iff.1 hm with rfl | hm
    · exact hlink
    · exact h.links m hm
  · intro n hn
    rcases List.mem_append.1 hn with hn | hn
    · exact h.names n hn
    · exact List.mem_singleton.1 hn ▸ hname

theorem up_notMem (h : t.Direct l) : Name.up ∉ l := fun hup => (h.names .up hup).1 rfl

end Direct

/-- The working directory is told directly, and no link says what cannot be looked up. -/
structure Sound (t : FileTree) : Prop where
  here : t.Direct t.here
  nodes : ∀ e ∈ t.entries, e.2.isPlain

theorem Sound.of_find? (ht : t.Sound) {link : Link} (hl : t.find? l = some (.link link)) :
    ∀ step ∈ link.steps, '\x00' ∉ step.name.text.toList := by
  have hne : l ≠ [] := by
    rintro rfl
    cases hl
  simpa [Node.isPlain] using ht.nodes _ ((find?_eq_some_iff hne).1 hl)

/-- The names of a path lead to a place that no link is on the way to. -/
structure Arrives (t : FileTree) (p : Path) : Prop where
  normal : p.IsNormal
  direct : t.Direct (t.locate p)

theorem Arrives.root : t.Arrives (.ofLocation []) := ⟨Path.isNormal_of_nil rfl, .nil⟩

theorem Arrives.up (h : t.Arrives p) : t.Arrives (p.step .up) := by
  obtain ⟨hnormal, hlocate⟩ := t.step_of_isNormal h.normal .up
  refine ⟨hnormal, ?_⟩
  rw [hlocate, if_pos rfl]
  exact h.direct.of_prefix (List.dropLast_prefix _)

theorem Arrives.down (h : t.Arrives p) (hname : name ≠ .up ∧ '\x00' ∉ name.text.toList)
    (hlink : ∀ link, t.find? (t.locate (p.step name)) ≠ some (.link link)) : t.Arrives (p.step name) := by
  obtain ⟨hnormal, hlocate⟩ := t.step_of_isNormal h.normal name
  rw [if_neg hname.1] at hlocate
  rw [hlocate] at hlink
  exact ⟨hnormal, hlocate ▸ h.direct.concat hname hlink⟩

end FileTree

/-- A walk gets lost, or it and the links that it has followed to their ends have arrived. -/
inductive Walk.Fares (t : FileTree) (w : Walk) : Prop
  | lost (h : w.lost)
  | arrived (path : t.Arrives w.path) (seen : ∀ link known, (link, some known) ∈ w.seen → t.Arrives known.path)

namespace Walk.Fares

variable {t : FileTree} {w : Walk}

theorem block (h : w.Fares t) (o : Option Obstacle) : (w.block o).Fares t := by
  cases h with
  | lost h => exact .lost h
  | arrived path seen => exact .arrived path seen

theorem ask (h : w.Fares t) (name : Name) : (w.ask name).Fares t := h.block _

theorem countLinks (h : w.Fares t) (n : Nat) : (w.countLinks n).Fares t := by
  cases h with
  | lost h => exact .lost h
  | arrived path seen => exact .arrived path seen

theorem toRoot (h : w.Fares t) : w.toRoot.Fares t := by
  cases h with
  | lost h => exact .lost h
  | arrived path seen => exact .arrived .root seen

theorem passSlashes (h : w.Fares t) (lostBefore doubled : Bool) : (w.passSlashes lostBefore doubled).Fares t := by
  unfold Walk.passSlashes
  split
  · exact h.toRoot
  · exact h

theorem seeOpen (h : w.Fares t) (link : Path) : (w.see link none).Fares t := by
  cases h with
  | lost h => exact .lost h
  | arrived path seen =>
      refine .arrived path fun l known hknown => ?_
      rcases List.mem_cons.1 hknown with he | hknown
      · cases he
      · exact seen l known hknown

theorem seeEnd (h : w.Fares t) (link : Path) (n : Nat) : (w.see link (some ⟨w.path, n⟩)).Fares t := by
  cases h with
  | lost h => exact .lost h
  | arrived path seen =>
      refine .arrived path fun l known hknown => ?_
      rcases List.mem_cons.1 hknown with he | hknown
      · cases he
        exact path
      · exact seen l known hknown

end Walk.Fares

namespace FileTree

variable {t : FileTree} {p : Path} {l : Location} {name : Name} {w : Walk}

open Walk (Fares)

theorem lost_follow (depth : Nat) (hlost : w.lost) (name : Name) : (t.follow depth w name).lost := by
  unfold follow
  simp [Walk.ask, Walk.block, hlost]

theorem fares_foldl_steps {depth : Nat} {steps : List Step}
    (hfollow : ∀ v : Walk, v.Fares t → ∀ step ∈ steps, (t.follow depth v step.name).Fares t) (hw : w.Fares t) :
    (steps.foldl (fun v step => (t.follow depth v step.name).passSlashes v.lost step.doubled) w).Fares t := by
  induction steps generalizing w with
  | nil => exact hw
  | cons step steps ih =>
      have hstep := hfollow w hw step List.mem_cons_self
      exact ih (fun v hv s hs => hfollow v hv s (List.mem_cons_of_mem step hs)) (hstep.passSlashes _ _)

theorem Sound.fares_follow (ht : t.Sound) (depth : Nat) (hw : w.Fares t) (hname : '\x00' ∉ name.text.toList) :
    (t.follow depth w name).Fares t := by
  induction depth using Nat.strongRecOn generalizing w name with
  | _ depth ih =>
      by_cases hlost : w.lost
      · exact .lost (lost_follow depth hlost name)
      unfold follow
      have hw := (hw.block (t.barrier (t.locate w.path))).ask name
      have hlost : ¬((w.block (t.barrier (t.locate w.path))).ask name).lost := hlost
      dsimp only
      generalize (w.block (t.barrier (t.locate w.path))).ask name = w at hw hlost
      obtain hl | ⟨path, seen⟩ := hw
      · exact absurd hl hlost
      by_cases hup : name = .up
      · rw [if_pos (.inr hup), hup]
        exact .arrived path.up seen
      rw [if_neg (not_or.2 ⟨hlost, hup⟩)]
      cases hn : t.find? (t.locate (w.path.step name)) with
      | none => exact .arrived (path.down ⟨hup, hname⟩ (by simp [hn])) seen
      | some n =>
          cases n with
          | file | directory => exact .arrived (path.down ⟨hup, hname⟩ (by simp [hn])) seen
          | link link =>
              cases hknown : w.seen.lookup (w.path.step name) with
              | some known =>
                  cases known with
                  | some known =>
                      obtain ⟨before, after, hseen, _⟩ := List.lookup_eq_some_iff.1 hknown
                      exact .arrived (seen _ known (hseen ▸ List.mem_append_right before List.mem_cons_self)) seen
                  | none => exact .lost rfl
              | none =>
                  cases depth with
                  | zero => exact .lost rfl
                  | succ depth =>
                      have hseen := ((Fares.arrived path seen).countLinks 1).seeOpen (w.path.step name)
                      have hstart : (if link.isRelative then (w.countLinks 1).see (w.path.step name) none
                          else ((w.countLinks 1).see (w.path.step name) none).toRoot).Fares t := by
                        split
                        · exact hseen
                        · exact hseen.toRoot
                      have hsteps := fares_foldl_steps (fun v hv step hstep =>
                        ih depth (Nat.lt_succ_self depth) hv (ht.of_find? hn step hstep)) hstart
                      dsimp only
                      split
                      · exact (hsteps.block _).seeEnd _ _
                      · exact hsteps.seeEnd _ _

theorem Sound.fares_walk (ht : t.Sound) (hp : ¬p.hasNul) : (t.walk p).Fares t := by
  have hnames : ∀ name ∈ p.names, '\x00' ∉ name.text.toList := by
    simpa [Path.hasNul] using hp
  have hstart : (Walk.start (if p.isRelative then ⟨.here, []⟩ else .ofLocation [])).Fares t := by
    refine .arrived ?_ fun _ _ h => absurd h List.not_mem_nil
    split
    · exact ⟨Path.isNormal_of_nil rfl, ht.here⟩
    · exact .root
  unfold walk
  generalize Walk.start _ = w, p.names = names at hstart hnames
  induction names generalizing w with
  | nil => exact hstart
  | cons name names ih =>
      obtain ⟨hname, hnames⟩ := List.forall_mem_cons.1 hnames
      exact ih _ (ht.fares_follow _ hstart hname) hnames

theorem Sound.direct_of_canonical (ht : t.Sound) (hl : t.canonical p = .ok l) (hlost : ¬(t.walk p).lost) :
    t.Direct l := by
  have hnul : ¬p.hasNul := by
    intro h
    simp [canonical, h] at hl
  rw [← t.destination_of_canonical hl]
  cases ht.fares_walk hnul with
  | lost h => exact absurd h hlost
  | arrived path _ => exact path.direct

theorem Direct.walk_ofLocation (hl : t.Direct l) :
    (t.walk (.ofLocation l)).path = .ofLocation l ∧ ¬(t.walk (.ofLocation l)).lost := by
  induction l using List.reverseRecOn with
  | nil => exact ⟨rfl, Bool.false_ne_true⟩
  | append_singleton l name ih =>
      obtain ⟨hpath, hlost⟩ := ih (hl.of_prefix (List.prefix_append l [name]))
      have hname : name ≠ .up := (hl.names name (by simp)).1
      have hwalk : t.walk (.ofLocation (l ++ [name])) = t.follow t.depth (t.walk (.ofLocation l)) name :=
        List.foldl_append ..
      have hstep : (Path.ofLocation l).step name = .ofLocation (l ++ [name]) := if_neg fun h => hname h.1
      have hlocate : t.locate (.ofLocation (l ++ [name])) = l ++ [name] := locate_ofLocation hl.up_notMem
      have hfollow : t.follow t.depth (t.walk (.ofLocation l)) name =
          { ((t.walk (.ofLocation l)).block (t.barrier l)).ask name with
            path := .ofLocation (l ++ [name]) } := by
        rw [follow_of_not_link _ (by simpa using hlost) hname, hpath, hstep, locate_ofLocation]
        · exact (hl.of_prefix (List.prefix_append l [name])).up_notMem
        · rw [hpath, hstep, hlocate]
          exact hl.links _ (List.prefix_refl _)
      rw [hwalk, hfollow]
      exact ⟨rfl, hlost⟩

theorem Direct.canonical_ofLocation (hl : t.Direct l) : t.canonical (.ofLocation l) = .ok l := by
  obtain ⟨hpath, hlost⟩ := hl.walk_ofLocation
  have hdestination : t.destination (.ofLocation l) = l := by
    rw [destination, hpath, locate_ofLocation hl.up_notMem]
  have hnul : ¬(Path.ofLocation l).hasNul := by
    simpa [Path.hasNul, Path.ofLocation] using fun name hname => (hl.names name hname).2
  rw [canonical, hdestination, if_neg hnul, if_neg fun h => hlost h.1]

/-- What is canonical once stays so, unless links have led in a circle. -/
theorem Sound.canonical_canonical (ht : t.Sound) (hl : t.canonical p = .ok l) (hlost : ¬(t.walk p).lost) :
    t.canonical (.ofLocation l) = .ok l :=
  (ht.direct_of_canonical hl hlost).canonical_ofLocation

end FileTree

end LayeredConfig
