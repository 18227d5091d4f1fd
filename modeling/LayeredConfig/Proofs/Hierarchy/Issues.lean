import LayeredConfig.Proofs.Concur
import LayeredConfig.Proofs.Duplicate
import LayeredConfig.Proofs.Hierarchy.Directives
import LayeredConfig.Proofs.Override

namespace LayeredConfig.Hierarchy

variable {h : Hierarchy} {i : Issue}

def issues (h : Hierarchy) : List Issue := Document.judge h.settings.root h.stream

theorem ReadFrom.issues {path : Path} {given : Option String} (hr : h.ReadFrom path given) :
    Document.issues h.settings h.tree path given = .ok h.issues := by
  unfold Document.issues
  rw [hr.stream]
  rfl

theorem concur_settle {α β : Type} {r : α → β → Prop} {h' : Hierarchy} (hf : h'.failure? = h.failure?) {a : α}
    {b : β} (hab : r a b) : Concur r (h.settle a) (h'.settle b) := by
  rw [settle, settle, hf]
  cases h.failure? with
  | none => exact .ok hab
  | some e => exact .error _

theorem issues_eq (h : Hierarchy) : h.issues = h.stream.issues ++
    Override.issues h.settings.root h.directives ++ Duplicate.issues h.settings.root h.directives := rfl

theorem kind_of_mem_stream (hi : i ∈ h.stream.issues) :
    i.kind = .missingImport ∨ i.kind = .cyclicImport := by
  obtain ⟨_, _, _, _, _, _, _, problem, _, rfl⟩ := mem_stream_issues_iff.1 hi
  cases problem with
  | missing | unreadable => exact .inl rfl
  | cyclic => exact .inr rfl

theorem kind_of_mem_override {root : Path} {ds : List Directive} (hi : i ∈ Override.issues root ds) :
    i.kind = .redefinedWithoutExclusion ∨ i.kind = .unnecessaryRedefinition := by
  obtain ⟨before, d, after, _, hj⟩ := Override.mem_issues_iff.1 hi
  obtain ⟨_, p, since, _, ⟨_, rfl⟩ | ⟨_, _, rfl⟩⟩ := Override.judge_history_iff.1 hj
  · exact .inl rfl
  · exact .inr rfl

theorem filter_overriding {p : IssueKind → Bool}
    (hp : ∀ k, p k → k = .redefinedWithoutExclusion ∨ k = .unnecessaryRedefinition) (h : Hierarchy) :
    h.issues.filter (fun i => p i.kind) =
      (Override.issues h.settings.root h.directives).filter fun i => p i.kind := by
  have hstream : h.stream.issues.filter (fun i => p i.kind) = [] := by
    rw [List.filter_eq_nil_iff]
    intro i hi hk
    rcases kind_of_mem_stream hi with hs | hs <;> rcases hp _ hk with ho | ho <;> cases hs.symm.trans ho
  have hduplicate : (Duplicate.issues h.settings.root h.directives).filter (fun i => p i.kind) = [] := by
    rw [List.filter_eq_nil_iff]
    intro i hi hk
    rcases hp _ hk with ho | ho <;> cases (Duplicate.kind_of_mem hi).symm.trans ho
  rw [issues_eq, List.filter_append, List.filter_append, hstream, hduplicate, List.nil_append,
    List.append_nil]

theorem filter_redefined (h : Hierarchy) :
    h.issues.filter (·.kind = .redefinedWithoutExclusion) =
      (Override.issues h.settings.root h.directives).filter (·.kind = .redefinedWithoutExclusion) :=
  filter_overriding (p := (· = .redefinedWithoutExclusion)) (fun _ hk => .inl (of_decide_eq_true hk)) h

theorem filter_override (h : Hierarchy) :
    h.issues.filter (fun i => i.kind = .redefinedWithoutExclusion ∨ i.kind = .unnecessaryRedefinition) =
      Override.issues h.settings.root h.directives := by
  rw [filter_overriding (p := fun k => k = .redefinedWithoutExclusion ∨ k = .unnecessaryRedefinition)
    (fun _ hk => of_decide_eq_true hk), List.filter_eq_self]
  exact fun i hi => decide_eq_true (kind_of_mem_override hi)

/-- The document `d` gives `A` and `C` their old values, of which `mid` has taken one away, and `B` a
new one. -/
def layered : Hierarchy where
  settings := ⟨.ofString "/w", .ofString "/w/m", "x", .inclusion⟩
  tree := {
    here := place "/w"
    entries := [
      (place "/w", .directory), (place "/w/m", .directory),
      (place "/w/d", .file "!mid\n-A\nA=1\n-C\nC=1\nB=2".toUTF8.data.toList),
      (place "/w/m/mid", .file "!base\n-A".toUTF8.data.toList),
      (place "/w/m/base", .file "A=1\nB=1\nC=1".toUTF8.data.toList)]
    nodup := by decide +kernel }
  root := place "/w/d"
  content := "!mid\n-A\nA=1\n-C\nC=1\nB=2"

theorem layered_readFrom : layered.ReadFrom (.ofString "d") none :=
  FoundAt.readFrom ⟨by decide +kernel, by decide +kernel⟩ (by decide +kernel)

theorem layered_isPath : layered.IsPath (["/w/d", "/w/m/mid", "/w/m/base"].map place) where
  head := rfl
  chain := by
    refine .cons_cons ⟨"!mid", 1, ?_⟩ (.cons_cons ⟨"!base", 1, ?_⟩ (.singleton _))
    · decide +kernel
    · decide +kernel
  nodup := by decide +kernel

theorem layered_reaches {v : Location} (hv : layered.Reaches v) :
    v ∈ ["/w/d", "/w/m/mid", "/w/m/base"].map place :=
  hv.mem_of_closed (by decide +kernel) (by decide +kernel)

end LayeredConfig.Hierarchy

namespace LayeredConfig.Document

variable (s : Settings) (t : FileTree) (path : Path) (given : Option String)

def hierarchy : Except DocumentError Hierarchy := do
  let document ← locate t path
  let content ← text t document given
  return ⟨s, t, document, content⟩

theorem stream_eq_bind : stream s t path given = hierarchy s t path given >>= fun h => h.settle h.stream := by
  simp only [stream, expansion, hierarchy, bind_assoc, pure_bind, ← Hierarchy.mapError_complete]

theorem issues_eq_bind : issues s t path given = hierarchy s t path given >>= fun h => h.settle h.issues := by
  have hmap : issues s t path given = judge s.root <$> stream s t path given := by
    rw [issues, map_eq_pure_bind]
  rw [hmap, stream_eq_bind, map_bind]
  simp only [Hierarchy.map_settle, hierarchy, bind_assoc, pure_bind]
  rfl

theorem config_eq_bind : config s t path given =
    hierarchy s t path given >>= fun h => h.settle (Effective.config h.directives) := by
  have hmap : config s t path given =
      (fun st => Effective.config (Precedence.order st.directives)) <$> stream s t path given := by
    simp only [config, directives, map_eq_pure_bind, bind_assoc, pure_bind]
  rw [hmap, stream_eq_bind, map_bind]
  simp only [Hierarchy.map_settle]
  rfl

theorem hierarchy_some (content : String) : hierarchy s t path (some content) =
    (fun root => ⟨s, t, root, content⟩) <$> locate t path := by
  rw [hierarchy]
  cases locate t path <;> rfl

theorem config_some (content : String) : config s t path (some content) =
    locate t path >>= fun root =>
      Hierarchy.settle ⟨s, t, root, content⟩
        (Effective.config (Hierarchy.directives ⟨s, t, root, content⟩)) := by
  rw [config_eq_bind, hierarchy_some, map_eq_pure_bind, bind_assoc]
  rfl

theorem issues_some (content : String) : issues s t path (some content) =
    locate t path >>= fun root =>
      Hierarchy.settle ⟨s, t, root, content⟩ (Hierarchy.issues ⟨s, t, root, content⟩) := by
  rw [issues_eq_bind, hierarchy_some, map_eq_pure_bind, bind_assoc]
  rfl

end LayeredConfig.Document
