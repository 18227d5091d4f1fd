import LayeredConfig.Proofs.FileTree

namespace LayeredConfig

namespace Walk

variable {w : Walk} {o : Obstacle}

theorem block_of_some (h : w.obstacle = some o) (more : Option Obstacle) :
    (w.block more).obstacle = some o := by
  rw [block, h, Option.some_or]

theorem passSlashes_of_some (h : w.obstacle = some o) (lostBefore doubled : Bool) :
    (w.passSlashes lostBefore doubled).obstacle = some o := by
  unfold passSlashes
  split <;> exact h

end Walk

namespace FileTree

variable {t : FileTree} {w : Walk} {name : Name} {o : Obstacle}

theorem obstacle_foldl_steps {depth : Nat} (steps : List Step)
    (hfollow : ∀ v : Walk, v.obstacle = some o → ∀ name, (t.follow depth v name).obstacle = some o)
    (hw : w.obstacle = some o) :
    (steps.foldl (fun v step => (t.follow depth v step.name).passSlashes v.lost step.doubled) w).obstacle =
      some o := by
  induction steps generalizing w with
  | nil => exact hw
  | cons step steps ih => exact ih (Walk.passSlashes_of_some (hfollow w hw step.name) _ _)

theorem obstacle_follow (depth : Nat)
    (h : ((w.block (t.barrier (t.locate w.path))).ask name).obstacle = some o) :
    (t.follow depth w name).obstacle = some o := by
  induction depth using Nat.strongRecOn generalizing w name with
  | _ depth ih =>
      unfold follow
      dsimp only
      generalize (w.block (t.barrier (t.locate w.path))).ask name = w at h
      split
      · exact h
      · split
        · exact Walk.block_of_some h _
        · rename_i link depth _ _
          have hstart : (if link.isRelative then (w.countLinks 1).see (w.path.step name) none
              else ((w.countLinks 1).see (w.path.step name) none).toRoot).obstacle = some o := by
            split <;> exact Walk.block_of_some h _
          have hsteps := obstacle_foldl_steps link.steps (fun v hv name =>
            ih depth (Nat.lt_succ_self depth) (Walk.block_of_some (Walk.block_of_some hv _) _)) hstart
          split
          · exact Walk.block_of_some hsteps _
          · exact hsteps
        · exact Walk.block_of_some h _
        · exact h

theorem obstacle?_of_long {p : Path} (hp : t.node? p = .ok .directory) (hname : name.fits = false) :
    t.obstacle? { p with names := p.names ++ [name] } = some .tooLong := by
  obtain ⟨hobstacle, hdir⟩ := t.node?_eq_ok_iff.1 hp
  have hwalk : (t.walk p).obstacle = none := by
    unfold obstacle? at hobstacle
    split at hobstacle
    · exact hobstacle
    · cases hobstacle
  have hconcat : t.walk { p with names := p.names ++ [name] } = t.follow t.depth (t.walk p) name :=
    List.foldl_append ..
  have hbarrier : t.barrier (t.locate (t.walk p).path) = none := by rw [barrier, ← destination, hdir]
  have hfollow : (t.follow t.depth (t.walk p) name).obstacle = some .tooLong := by
    refine obstacle_follow _ ?_
    rw [hbarrier]
    simp [Walk.ask, Walk.block, hwalk, hname]
  unfold obstacle?
  split
  · rw [hconcat, hfollow]
  · rfl

theorem file?_of_long {p : Path} (hp : t.node? p = .ok .directory) (hname : name.fits = false)
    (hnul : ¬Path.hasNul { p with names := p.names ++ [name] }) :
    t.file? { p with names := p.names ++ [name] } =
      .error (.tooLong { p with names := p.names ++ [name] }) := by
  have hnode : t.node? { p with names := p.names ++ [name] } = .error .tooLong := by
    rw [node?, obstacle?_of_long hp hname]
  rw [file?, lookUp, if_neg hnul, hnode]
  rfl

end FileTree

namespace Path

theorem text_of_name (n : Name) : text ⟨.here, [n]⟩ = n.text := by
  simp [text, namesText, Anchor.slashes, List.intercalate]

theorem ofString_name (n : Name) : ofString n.text = ⟨.here, [n]⟩ := by
  rw [← text_of_name, ofString_text]

end Path

theorem FileTree.file?_join_of_long {t : FileTree} {dir : Path} {n : Name}
    (hdir : t.node? dir = .ok .directory) (hlong : n.fits = false) (hnul : ¬(dir.join ⟨.here, [n]⟩).hasNul) :
    t.file? (dir.join (.ofString n.text)) = .error (.tooLong (dir.join ⟨.here, [n]⟩)) := by
  rw [Path.ofString_name]
  exact file?_of_long hdir hlong hnul

/-- An import of a name that no file can have is no missing import: the looking up fails. -/
theorem Import.locate_of_long {s : Settings} {t : FileTree} {name : String} {n : Name}
    (hdir : t.node? s.importsDir = .ok .directory) (hne : Text.trim name ≠ "")
    (hname : n.text = s!"{Text.trim name}.{s.extension}") (hlong : n.fits = false)
    (hnul : ¬(s.importsDir.join ⟨.here, [n]⟩).hasNul) :
    locate s t name = .error (.tooLong (s.importsDir.join ⟨.here, [n]⟩)) := by
  simp only [locate, if_neg hne, candidates, List.map_cons, ← hname, FileTree.firstFile?,
    FileTree.file?_join_of_long hdir hlong hnul]

end LayeredConfig
