import Mathlib.Data.List.Induction
import LayeredConfig.FileTree.Canonical
import LayeredConfig.FileTree.Read
import LayeredConfig.Import

namespace LayeredConfig

def Node.outline : Node → Node
  | .file _ => .file []
  | n => n

namespace FileTree

def outline (t : FileTree) : List (Location × Node) := t.entries.map fun e => (e.1, e.2.outline)

/-- The same files, directories and links stand in both trees; the files may hold anything. -/
structure SameLayout (t t' : FileTree) : Prop where
  here : t'.here = t.here
  outline : t'.outline.Perm t.outline

variable {t t' : FileTree}

theorem find?_eq_some_iff {l : Location} {n : Node} (hl : l ≠ []) :
    t.find? l = some n ↔ (l, n) ∈ t.entries := by
  constructor
  · intro hn
    rw [find?, if_neg hl] at hn
    obtain ⟨e, he, rfl⟩ := Option.map_eq_some_iff.1 hn
    obtain rfl : e.1 = l := by simpa using List.find?_some he
    exact List.mem_of_find?_eq_some he
  · intro he
    exact t.find?_of_mem he hl

theorem outline_find?_eq_some_iff {l : Location} {n : Node} (hl : l ≠ []) :
    (t.find? l).map Node.outline = some n ↔ (l, n) ∈ t.outline := by
  simp only [Option.map_eq_some_iff, find?_eq_some_iff hl, FileTree.outline, List.mem_map, Prod.mk.injEq]
  constructor
  · rintro ⟨n, he, rfl⟩
    exact ⟨(l, n), he, rfl, rfl⟩
  · rintro ⟨⟨l, n⟩, he, rfl, rfl⟩
    exact ⟨n, he, rfl⟩

theorem lookUp_eq_error_iff {p : Path} {e : PathError} :
    t.lookUp p = .error e ↔ p.hasNul = false ∧ t.obstacle? p = some .tooLong ∧ e = .tooLong p := by
  unfold lookUp node?
  cases p.hasNul with
  | true => simp
  | false =>
      cases t.obstacle? p with
      | none => cases t.find? (t.destination p) <;> simp
      | some o => cases o <;> simp [eq_comm]

theorem file?_eq_error_iff {p : Path} {e : PathError} :
    t.file? p = .error e ↔ p.hasNul = false ∧ t.obstacle? p = some .tooLong ∧ e = .tooLong p := by
  rw [← lookUp_eq_error_iff, file?]
  cases t.lookUp p <;> simp [Except.map]

theorem exists_tooLong_of_firstFile? {ps : List Path} {e : PathError} (h : t.firstFile? ps = .error e) :
    ∃ p ∈ ps, t.obstacle? p = some .tooLong ∧ e = .tooLong p := by
  induction ps with
  | nil => cases h
  | cons p ps ih =>
      rw [firstFile?] at h
      split at h
      · rename_i hfile
        cases h
        exact ⟨p, List.mem_cons_self, (file?_eq_error_iff.1 hfile).2⟩
      · cases h
      · obtain ⟨q, hq, hlong⟩ := ih h
        exact ⟨q, List.mem_cons_of_mem p hq, hlong⟩

theorem firstFile?_eq_of_find? {ps : List Path} {p : Path}
    (h : ps.find? (fun p => t.file? p ≠ .ok none) = some p) : t.firstFile? ps = t.file? p := by
  induction ps with
  | nil => cases h
  | cons q ps ih =>
      rw [firstFile?]
      by_cases hq : t.file? q = .ok none
      · rw [hq]
        exact ih (by simpa [hq] using h)
      · obtain rfl : q = p := by simpa [hq] using h
        split <;> simp_all

namespace SameLayout

variable (h : SameLayout t t')

include h

theorem find? (l : Location) : (t'.find? l).map Node.outline = (t.find? l).map Node.outline := by
  by_cases hl : l = []
  · simp [hl, FileTree.find?]
  · apply Option.ext
    intro n
    rw [outline_find?_eq_some_iff hl, outline_find?_eq_some_iff hl, h.outline.mem_iff]

theorem find?_cases (l : Location) : t'.find? l = t.find? l ∨
    ∃ bytes bytes', t.find? l = some (.file bytes) ∧ t'.find? l = some (.file bytes') := by
  have hl := h.find? l
  cases hn : t.find? l with
  | none =>
      rw [hn] at hl
      exact .inl (Option.map_eq_none_iff.1 hl)
  | some n =>
      rw [hn] at hl
      obtain ⟨n', hn', hout⟩ := Option.map_eq_some_iff.1 hl
      rw [hn']
      cases n <;> cases n' <;> simp_all [Node.outline]

theorem linkCount : t'.linkCount = t.linkCount := by
  have hlinks : ∀ t : FileTree, t.linkCount = t.outline.countP (·.2.isLink) := by
    intro t
    rw [FileTree.linkCount, FileTree.outline, List.countP_map]
    congr 1
    funext e
    rcases e with ⟨l, n⟩
    cases n <;> rfl
  rw [hlinks, hlinks, h.outline.countP_eq]

theorem mem_files_iff {l : Location} : l ∈ t'.files ↔ l ∈ t.files := by
  have hfiles : ∀ t : FileTree, t.files = (t.outline.filter (·.2.isFile)).map Prod.fst := by
    intro t
    rw [FileTree.files, FileTree.outline, List.filter_map, List.map_map]
    congr 2
    funext e
    rcases e with ⟨l, n⟩
    cases n <;> rfl
  rw [hfiles, hfiles, ((h.outline.filter _).map _).mem_iff]

theorem locate (p : Path) : t'.locate p = t.locate p := by
  rw [FileTree.locate, FileTree.locate, h.here]

theorem barrier (l : Location) : t'.barrier l = t.barrier l := by
  rcases h.find?_cases l with hl | ⟨bytes, bytes', hb, hb'⟩
  · rw [FileTree.barrier, FileTree.barrier, hl]
  · rw [FileTree.barrier, FileTree.barrier, hb, hb']

/-- Of a node on its way a walk only asks whether it is a directory, and where it leads if it is a link. -/
theorem follow (depth : Nat) (w : Walk) (name : Name) : t'.follow depth w name = t.follow depth w name := by
  induction depth using Nat.strongRecOn generalizing w name with
  | _ depth ih =>
      unfold FileTree.follow
      simp only [h.barrier, h.locate]
      generalize (w.block (t.barrier (t.locate w.path))).ask name = w
      rcases h.find?_cases (t.locate (w.path.step name)) with hl | ⟨bytes, bytes', hb, hb'⟩
      · rw [hl]
        cases t.find? (t.locate (w.path.step name)) with
        | none => rfl
        | some n =>
            cases n with
            | file | directory => rfl
            | link link =>
                cases w.seen.lookup (w.path.step name) with
                | some known => cases known <;> rfl
                | none =>
                    cases depth with
                    | zero => rfl
                    | succ depth => simp only [ih depth (Nat.lt_succ_self depth)]
      · rw [hb, hb']

theorem walk (p : Path) : t'.walk p = t.walk p := by
  have hfollow : t'.follow t'.depth = t.follow t.depth := by
    funext w name
    rw [FileTree.depth, h.linkCount, h.here, h.follow, FileTree.depth]
  rw [FileTree.walk, FileTree.walk, hfollow]

theorem destination (p : Path) : t'.destination p = t.destination p := by
  rw [FileTree.destination, FileTree.destination, h.walk, h.locate]

theorem obstacle? (p : Path) : t'.obstacle? p = t.obstacle? p := by
  rw [FileTree.obstacle?, FileTree.obstacle?, h.walk]

theorem node?_cases (p : Path) : t'.node? p = t.node? p ∨
    ∃ bytes bytes', t.find? (t.destination p) = some (.file bytes) ∧
      t'.find? (t.destination p) = some (.file bytes') ∧ t.node? p = .ok (.file bytes) ∧
      t'.node? p = .ok (.file bytes') := by
  simp only [FileTree.node?, h.obstacle?, h.destination]
  cases t.obstacle? p with
  | some o => exact .inl rfl
  | none =>
      rcases h.find?_cases (t.destination p) with hl | ⟨bytes, bytes', hb, hb'⟩
      · exact .inl (by rw [hl])
      · exact .inr ⟨bytes, bytes', hb, hb', by rw [hb], by rw [hb']⟩

theorem file? (p : Path) : t'.file? p = t.file? p := by
  unfold FileTree.file? FileTree.lookUp
  rw [h.destination]
  rcases h.node?_cases p with hl | ⟨bytes, bytes', _, _, hb, hb'⟩
  · rw [hl]
  · rw [hb, hb']
    split <;> rfl

theorem firstFile? (ps : List Path) : t'.firstFile? ps = t.firstFile? ps := by
  induction ps with
  | nil => rfl
  | cons p ps ih => rw [FileTree.firstFile?, FileTree.firstFile?, h.file?, ih]

theorem canonical (p : Path) : t'.canonical p = t.canonical p := by
  simp only [FileTree.canonical, h.destination, h.walk, h.obstacle?]

theorem readBytes_cases (p : Path) :
    (∃ e, t.readBytes p = .error e ∧ t'.readBytes p = .error e) ∨
      ∃ l bytes bytes', t.find? l = some (.file bytes) ∧ t'.find? l = some (.file bytes') ∧
        t.readBytes p = .ok bytes ∧ t'.readBytes p = .ok bytes' := by
  unfold FileTree.readBytes
  rcases h.node?_cases p with hl | ⟨bytes, bytes', hf, hf', hb, hb'⟩
  · rw [hl]
    cases hn : t.node? p with
    | error o => exact .inl ⟨_, rfl, rfl⟩
    | ok n =>
        cases n with
        | directory | link => exact .inl ⟨_, rfl, rfl⟩
        | file bytes =>
            have hf := (t.node?_eq_ok_iff.1 hn).2
            have hf' := (t'.node?_eq_ok_iff.1 (hl.trans hn)).2
            exact .inr ⟨_, bytes, bytes, hf, h.destination p ▸ hf', rfl, rfl⟩
  · rw [hb, hb']
    exact .inr ⟨_, bytes, bytes', hf, hf', rfl, rfl⟩

theorem readBytes_of_find? {p : Path} (hp : t'.find? (t.destination p) = t.find? (t.destination p)) :
    t'.readBytes p = t.readBytes p := by
  simp only [FileTree.readBytes, FileTree.node?, h.obstacle?, h.destination, hp]

end SameLayout

theorem nodup_outline (t : FileTree) : t.outline.Nodup :=
  List.pairwise_map.2 ((List.pairwise_map.1 t.nodup).imp fun hne he => hne (Prod.mk.inj he).1)

theorem sameLayout_put {l : Location} {bytes : List UInt8} (hl : t.find? l = some (.file bytes))
    (bytes' : List UInt8) : SameLayout t (t.put l (.file bytes')) := by
  have hne : l ≠ [] := by
    rintro rfl
    cases hl
  refine ⟨rfl, (List.perm_ext_iff_of_nodup (nodup_outline _) (nodup_outline _)).2 ?_⟩
  rintro ⟨m, n⟩
  simp only [outline, put, List.map_cons, List.mem_cons, List.mem_map, List.mem_filter, decide_eq_true_eq,
    Prod.mk.injEq]
  constructor
  · rintro (⟨rfl, rfl⟩ | ⟨e, ⟨he, _⟩, hm⟩)
    · exact ⟨(m, .file bytes), (find?_eq_some_iff hne).1 hl, rfl, rfl⟩
    · exact ⟨e, he, hm⟩
  · rintro ⟨⟨m, n⟩, he, rfl, rfl⟩
    by_cases hm : m = l
    · subst hm
      obtain rfl := Option.some.inj (((find?_eq_some_iff hne).2 he).symm.trans hl)
      exact .inl ⟨rfl, rfl⟩
    · exact .inr ⟨(m, n), ⟨he, hm⟩, rfl, rfl⟩

/-- Whatever there is stands in a directory, under names that can be looked up. -/
structure Closed (t : FileTree) : Prop where
  parent : ∀ e ∈ t.entries, t.find? e.1.dropLast = some .directory
  names : ∀ e ∈ t.entries, ∀ name ∈ e.1, name ≠ .up ∧ '\x00' ∉ name.text.toList ∧ name.fits

theorem locate_ofLocation {l : Location} (hl : Name.up ∉ l) : t.locate (.ofLocation l) = l := by
  induction l using List.reverseRecOn with
  | nil => rfl
  | append_singleton l name ih =>
      rw [List.mem_append, List.mem_singleton, not_or] at hl
      have hstep : t.locate (.ofLocation (l ++ [name])) =
          if name = .up then (t.locate (.ofLocation l)).dropLast
          else t.locate (.ofLocation l) ++ [name] := List.foldl_append ..
      rw [hstep, if_neg (Ne.symm hl.2), ih hl.1]

theorem Closed.find?_of_append (hc : t.Closed) {l m : Location} {n : Node} (hm : m ≠ [])
    (hn : t.find? (l ++ m) = some n) : t.find? l = some .directory := by
  induction m using List.reverseRecOn generalizing n with
  | nil => exact absurd rfl hm
  | append_singleton m name ih =>
      rw [← List.append_assoc, find?_eq_some_iff (by simp)] at hn
      have hparent := hc.parent _ hn
      rw [List.dropLast_concat] at hparent
      by_cases hm : m = []
      · rwa [hm, List.append_nil] at hparent
      · exact ih hm hparent

theorem follow_of_not_link {w : Walk} {name : Name} (depth : Nat) (hlost : w.lost = false) (hname : name ≠ .up)
    (hlink : ∀ link, t.find? (t.locate (w.path.step name)) ≠ some (.link link)) :
    t.follow depth w name =
      { (w.block (t.barrier (t.locate w.path))).ask name with path := w.path.step name } := by
  have hstep : ((w.block (t.barrier (t.locate w.path))).ask name).path.step name = w.path.step name := rfl
  have hkeep : ((w.block (t.barrier (t.locate w.path))).ask name).lost = false := hlost
  unfold follow
  simp only [hstep, hkeep, hname, Bool.false_eq_true, or_false, if_false]
  cases hn : t.find? (t.locate (w.path.step name)) with
  | none => rfl
  | some n =>
      cases n with
      | file | directory => rfl
      | link link => exact absurd hn (hlink link)

theorem follow_ofLocation {l : Location} {name : Name} {n : Node} (hl : Name.up ∉ l) (hname : name ≠ .up)
    (hfits : name.fits) (hdir : t.find? l = some .directory) (hn : t.find? (l ++ [name]) = some n)
    (hlink : n.isLink = false)
    (depth : Nat) : t.follow depth (.start (.ofLocation l)) name = .start (.ofLocation (l ++ [name])) := by
  have hbarrier : t.barrier (t.locate (.ofLocation l)) = none := by
    rw [locate_ofLocation hl, barrier, hdir]
  have hstep : (Path.ofLocation l).step name = .ofLocation (l ++ [name]) :=
    if_neg fun h => hname h.1
  have hlocate : t.locate (.ofLocation (l ++ [name])) = l ++ [name] :=
    locate_ofLocation (by simp [hl, hname.symm])
  have hnone : ∀ link, t.find? (t.locate ((Walk.start (.ofLocation l)).path.step name)) ≠ some (.link link) := by
    intro link he
    rw [Walk.start, hstep, hlocate, hn] at he
    cases he
    cases hlink
  rw [follow_of_not_link depth rfl hname hnone, Walk.start, hbarrier, hstep, Walk.ask, if_pos hfits]
  rfl

theorem Closed.walk_ofLocation (hc : t.Closed) {l m : Location} {n : Node} (hlink : n.isLink = false)
    (hn : t.find? (l ++ m) = some n) (hnames : ∀ name ∈ l, name ≠ .up ∧ name.fits) :
    t.walk (.ofLocation l) = .start (.ofLocation l) := by
  induction l using List.reverseRecOn generalizing m n with
  | nil => rfl
  | append_singleton l name ih =>
      rw [List.append_assoc, List.singleton_append] at hn
      -- Only at its end may the way come to anything but a directory.
      obtain ⟨n', hlink', hn'⟩ : ∃ n', n'.isLink = false ∧ t.find? (l ++ [name]) = some n' := by
        by_cases hm : m = []
        · exact ⟨n, hlink, hm ▸ hn⟩
        · rw [List.append_cons] at hn
          exact ⟨.directory, rfl, hc.find?_of_append hm hn⟩
      have hwalk : t.walk (.ofLocation (l ++ [name])) = t.follow t.depth (t.walk (.ofLocation l)) name :=
        List.foldl_append ..
      rw [List.forall_mem_append, List.forall_mem_singleton] at hnames
      have hup : Name.up ∉ l := fun hm => (hnames.1 _ hm).1 rfl
      rw [hwalk, ih hlink hn hnames.1]
      exact follow_ofLocation hup hnames.2.1 hnames.2.2 (hc.find?_of_append (by simp) hn) hn' hlink' _

theorem Closed.walk_of_mem_files (hc : t.Closed) {l : Location} (hl : l ∈ t.files) :
    Name.up ∉ l ∧ t.walk (.ofLocation l) = .start (.ofLocation l) := by
  obtain ⟨⟨l, n⟩, he, rfl⟩ := List.mem_map.1 hl
  obtain ⟨he, hfile⟩ := List.mem_filter.1 he
  have hlink : n.isLink = false := by
    cases n with
    | file => rfl
    | directory | link => cases hfile
  have hup : Name.up ∉ l := fun hm => (hc.names _ he _ hm).1 rfl
  refine ⟨hup, ?_⟩
  by_cases hne : l = []
  · rw [hne]
    rfl
  · refine hc.walk_ofLocation (m := []) hlink (by rwa [List.append_nil, find?_eq_some_iff hne]) ?_
    exact fun name hname => ⟨(hc.names _ he name hname).1, (hc.names _ he name hname).2.2⟩

theorem Closed.destination_ofLocation (hc : t.Closed) {l : Location} (hl : l ∈ t.files) :
    t.destination (.ofLocation l) = l := by
  obtain ⟨hup, hwalk⟩ := hc.walk_of_mem_files hl
  rw [destination, hwalk]
  exact locate_ofLocation hup

theorem Closed.canonical_ofLocation (hc : t.Closed) {l : Location} (hl : l ∈ t.files) :
    t.canonical (.ofLocation l) = .ok l := by
  obtain ⟨e, he, hel⟩ := List.mem_map.1 hl
  have hnul : ¬(Path.ofLocation l).hasNul := by
    simpa [Path.hasNul, Path.ofLocation] using
      fun name hm => (hc.names e (List.mem_filter.1 he).1 name (hel ▸ hm)).2.1
  simp only [canonical, hc.destination_ofLocation hl, (hc.walk_of_mem_files hl).2, if_neg hnul, Walk.start]
  rfl

theorem Closed.readBytes_ofLocation (hc : t.Closed) (h : SameLayout t t') {l : Location} {bytes : List UInt8}
    (hl : t'.find? l = some (.file bytes)) (hfits : (Path.ofLocation l).fits) :
    t'.readBytes (.ofLocation l) = .ok bytes := by
  have hfile : l ∈ t.files := h.mem_files_iff.1 (t'.mem_files_of_find? hl)
  have hobstacle : t.obstacle? (.ofLocation l) = none := by
    rw [obstacle?, if_pos hfits, (hc.walk_of_mem_files hfile).2]
    rfl
  simp only [readBytes, node?, h.obstacle?, h.destination, hobstacle, hc.destination_ofLocation hfile, hl]

end FileTree

theorem Import.locate_of_sameLayout {t t' : FileTree} (h : t.SameLayout t') (s : Settings) (name : String) :
    locate s t' name = locate s t name := by
  rw [locate, locate, show t'.firstFile? = t.firstFile? from funext h.firstFile?]

end LayeredConfig
