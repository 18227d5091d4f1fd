import Mathlib.Data.List.DropRight
import LayeredConfig.Document

namespace LayeredConfig

namespace Publications

variable (t : FileTree)

/-- Diagnostics are published under a path, or by a report of what a document has to show. -/
inductive Publishing
  | direct (path : Path) (version : Int) (diagnostics : List Diagnostic)
  | report (r : Publication)
deriving DecidableEq, Repr

namespace Publishing

def path : Publishing → Path
  | .direct path _ _ => path
  | .report r => .ofLocation r.document

def version : Publishing → Int
  | .direct _ version _ => version
  | .report r => r.version

def diagnostics : Publishing → List Diagnostic
  | .direct _ _ ds => ds
  | .report r => r.diagnostics

def perform (ps : Publications) : Publishing → Except DocumentError (Publications × Bool)
  | .direct path version ds => Document.publish t ps path version ds
  | .report r => Document.publishReport t ps r

def publication (g : Publishing) (document : Location) : Publication := ⟨document, g.version, g.diagnostics⟩

end Publishing

inductive Call
  | publish (g : Publishing)
  | clear (path : Path)
  | clearAll
deriving DecidableEq, Repr

namespace Call

def isPublish : Call → Bool
  | .publish _ => true
  | _ => false

def path? : Call → Option Path
  | .publish g => some g.path
  | .clear path => some path
  | .clearAll => none

def perform (ps : Publications) : Call → Except DocumentError Publications
  | .publish g => Prod.fst <$> g.perform t ps
  | .clear path => Document.clear t ps path
  | .clearAll => .ok .empty

/-- A call whose path leads nowhere fails and leaves everything as it is. -/
def after (ps : Publications) (call : Call) : Publications := (call.perform t ps).toOption.getD ps

def clears (document : Location) : Call → Bool
  | .publish _ => false
  | .clear path => (t.canonical path).toOption = some document
  | .clearAll => true

def publication? (document : Location) : Call → Option Publication
  | .publish g =>
      if (t.canonical g.path).toOption = some document then some (g.publication document) else none
  | _ => none

end Call

def run (calls : List Call) : Publications := calls.foldl (Call.after t) .empty

def since (calls : List Call) (document : Location) : List Publication :=
  (calls.rtakeWhile fun call => ¬call.clears t document).filterMap (Call.publication? t document)

/-- The last of those with the highest version. -/
def IsNewest (ps : List Publication) (p : Publication) : Prop :=
  ∃ before after, ps = before ++ p :: after ∧ (∀ q ∈ before, q.version ≤ p.version) ∧
    ∀ q ∈ after, q.version < p.version

/-- Call number `n` is the first to publish the document since it was last cleared. -/
def Opens (calls : List Call) (document : Location) (n : Nat) : Prop :=
  ∃ before call after, calls = before ++ call :: after ∧ before.length = n ∧ since t before document = [] ∧
    (call.publication? t document).isSome ∧ ∀ c ∈ after, ¬c.clears t document

variable {t} {ps : Publications} {p q : Publication} {call : Call} {calls : List Call}
  {document : Location} {path : Path} {g : Publishing} {n : Nat}

theorem documents_put (ps : Publications) (p : Publication) : (ps.put p).documents =
    if p.document ∈ ps.documents then ps.documents else ps.documents ++ [p.document] := by
  rcases ps with ⟨qs⟩
  unfold documents put
  induction qs with
  | nil => simp [putIn]
  | cons q qs ih => grind [putIn]

theorem documents_clear (ps : Publications) (document : Location) :
    (ps.clear document).documents = ps.documents.filter (· ≠ document) := by
  rw [documents, clear, documents, List.filter_map]
  rfl

theorem mem_documents_iff : document ∈ ps.documents ↔ (ps.get? document).isSome := by
  simp [documents, get?]

theorem accepts_iff : ps.accepts p ↔ ∀ q, ps.get? p.document = some q → q.version ≤ p.version := by
  unfold accepts version?
  cases ps.get? p.document <;> simp

theorem publish_snd (ps : Publications) (p : Publication) : (ps.publish p).2 = ps.accepts p := by
  rw [publish]
  split <;> simp_all

theorem publish_of_not_accepts (h : ps.accepts p = false) : (ps.publish p).1 = ps := by
  rw [publish, if_neg (by simp [h])]

@[simp]
theorem Publishing.document_publication (g : Publishing) (document : Location) :
    (g.publication document).document = document := rfl

theorem Publishing.perform_eq (t : FileTree) (ps : Publications) (g : Publishing) :
    g.perform t ps = Document.publish t ps g.path g.version g.diagnostics := by
  cases g <;> rfl

theorem publish_eq (hpath : t.canonical path = .ok document) (ps : Publications) (version : Int)
    (ds : List Diagnostic) :
    Document.publish t ps path version ds = .ok (ps.publish ⟨document, version, ds⟩) := by
  simp only [Document.publish, Document.locate, hpath]
  rfl

theorem clear_eq (hpath : t.canonical path = .ok document) (ps : Publications) :
    Document.clear t ps path = .ok (ps.clear document) := by
  simp only [Document.clear, Document.locate, hpath]
  rfl

theorem get?_of_publish {ps' : Publications} (h : ps.publish p = (ps', true)) :
    ps'.get? p.document = some p := by
  unfold publish at h
  split at h <;> cases h
  rw [get?_put, if_pos rfl]

theorem Publishing.perform_of_canonical (hpath : t.canonical g.path = .ok document) :
    g.perform t ps = .ok (ps.publish (g.publication document)) := by
  rw [perform_eq, publish_eq hpath]
  rfl

namespace Call

theorem after_publish (hpath : t.canonical g.path = .ok document) :
    (publish g).after t ps = (ps.publish (g.publication document)).1 := by
  simp only [after, perform, Publishing.perform_of_canonical hpath]
  rfl

theorem after_clear (hpath : t.canonical path = .ok document) :
    (clear path).after t ps = ps.clear document := by
  simp only [after, perform, clear_eq hpath]
  rfl

theorem after_of_error {e : PathError} (hpath : t.canonical path = .error e)
    (hcall : call.path? = some path) : call.after t ps = ps := by
  cases call with
  | publish | clear =>
      cases hcall
      simp only [after, perform, Publishing.perform_eq, Document.publish, Document.clear, Document.locate,
        hpath]
      rfl
  | clearAll => cases hcall

theorem get?_after_of_clears (h : call.clears t document) : (call.after t ps).get? document = none := by
  cases call with
  | publish => cases h
  | clear path =>
      cases hpath : t.canonical path with
      | error e => simp [clears, hpath, Except.toOption] at h
      | ok d =>
          obtain rfl : d = document := by simpa [clears, hpath, Except.toOption] using h
          rw [after_clear hpath, get?_clear, if_pos rfl]
  | clearAll => rfl

theorem document_of_publication? (h : call.publication? t document = some p) : p.document = document := by
  cases call with
  | publish g =>
      simp only [publication?, Option.ite_none_right_eq_some, Option.some.injEq] at h
      rw [← h.2]
      rfl
  | clear | clearAll => cases h

theorem after_of_publication? (h : call.publication? t document = some p) :
    call.after t ps = (ps.publish p).1 := by
  cases call with
  | publish g =>
      simp only [publication?, Option.ite_none_right_eq_some, Option.some.injEq] at h
      obtain ⟨hpath, rfl⟩ := h
      cases hc : t.canonical g.path with
      | error e => simp [hc, Except.toOption] at hpath
      | ok d =>
          obtain rfl : d = document := by simpa [hc, Except.toOption] using hpath
          exact after_publish hc
  | clear | clearAll => cases h

theorem get?_after_of_neither (hclears : ¬call.clears t document)
    (hpublication : call.publication? t document = none) :
    (call.after t ps).get? document = ps.get? document := by
  cases call with
  | publish g =>
      cases hpath : t.canonical g.path with
      | error e => rw [after_of_error hpath rfl]
      | ok d =>
          have hne : document ≠ d := by
            rintro rfl
            simp [publication?, hpath, Except.toOption] at hpublication
          rw [after_publish hpath, Publications.publish]
          split
          · rw [get?_put, Publishing.document_publication, if_neg hne]
          · rfl
  | clear path =>
      cases hpath : t.canonical path with
      | error e => rw [after_of_error hpath rfl]
      | ok d =>
          have hne : document ≠ d := by
            rintro rfl
            simp [clears, hpath, Except.toOption] at hclears
          rw [after_clear hpath, get?_clear, if_neg hne]
  | clearAll => exact absurd rfl hclears

theorem get?_after_of_elsewhere (hcall : call.path? = some path) (hpath : t.canonical path ≠ .ok document) :
    (call.after t ps).get? document = ps.get? document := by
  have hother : (t.canonical path).toOption ≠ some document := by
    cases hc : t.canonical path with
    | error e => simp [Except.toOption]
    | ok d => simpa [Except.toOption, hc] using hpath
  cases call with
  | publish =>
      cases hcall
      exact get?_after_of_neither (by simp [clears]) (if_neg hother)
  | clear =>
      cases hcall
      exact get?_after_of_neither (by simpa [clears] using hother) rfl
  | clearAll => cases hcall

end Call

theorem run_concat (calls : List Call) (call : Call) :
    run t (calls ++ [call]) = call.after t (run t calls) := List.foldl_concat ..

theorem since_concat_of_clears (h : call.clears t document) : since t (calls ++ [call]) document = [] := by
  rw [since, List.rtakeWhile_concat_neg _ _ _ (by simpa using h), List.filterMap_nil]

theorem since_concat (h : ¬call.clears t document) :
    since t (calls ++ [call]) document = since t calls document ++ (call.publication? t document).toList := by
  rw [since, List.rtakeWhile_concat_pos _ _ _ (by simpa using h), List.filterMap_append]
  cases hp : call.publication? t document <;> simp [since, hp]

theorem Call.not_clears_of_publication? (h : call.publication? t document = some p) :
    ¬call.clears t document := by
  cases call with
  | publish => simp [clears]
  | clear | clearAll => cases h

theorem IsNewest.mem {qs : List Publication} (h : IsNewest qs p) : p ∈ qs := by
  obtain ⟨before, after, rfl, _, _⟩ := h
  exact List.mem_append_right before List.mem_cons_self

theorem IsNewest.version_le {qs : List Publication} (h : IsNewest qs p) (hq : q ∈ qs) :
    q.version ≤ p.version := by
  obtain ⟨before, after, rfl, hbefore, hafter⟩ := h
  rcases List.mem_append.1 hq with hq | hq
  · exact hbefore q hq
  · rcases List.mem_cons.1 hq with rfl | hq
    · exact Int.le_refl _
    · exact Int.le_of_lt (hafter q hq)

theorem IsNewest.concat {qs : List Publication} (h : IsNewest qs p) (q : Publication) :
    IsNewest (qs ++ [q]) (if p.version ≤ q.version then q else p) := by
  split
  · rename_i hle
    refine ⟨qs, [], rfl, fun r hr => ?_, by simp⟩
    exact Int.le_trans (h.version_le hr) hle
  · rename_i hlt
    obtain ⟨before, after, rfl, hbefore, hafter⟩ := h
    refine ⟨before, after ++ [q], by simp, hbefore, fun r hr => ?_⟩
    rcases List.mem_append.1 hr with hr | hr
    · exact hafter r hr
    · obtain rfl := List.mem_singleton.1 hr
      exact Int.not_le.1 hlt

theorem isNewest_singleton (p : Publication) : IsNewest [p] p := ⟨[], [], rfl, by simp, by simp⟩

/-- What is on show for a document follows from what was published for it. -/
def Shown (qs : List Publication) : Option Publication → Prop
  | none => qs = []
  | some p => IsNewest qs p

theorem Shown.publish {qs : List Publication} (h : Shown qs (ps.get? p.document)) :
    Shown (qs ++ [p]) ((ps.publish p).1.get? p.document) := by
  rw [Publications.publish]
  cases hq : ps.get? p.document with
  | none =>
      have haccepts : ps.accepts p := accepts_iff.2 (by simp [hq])
      rw [hq] at h
      rw [if_pos haccepts, get?_put, if_pos rfl, h, List.nil_append]
      exact isNewest_singleton p
  | some q =>
      have haccepts : ps.accepts p ↔ q.version ≤ p.version := by simp [accepts_iff, hq]
      rw [hq] at h
      have hnewest := IsNewest.concat h p
      by_cases hle : q.version ≤ p.version
      · rw [if_pos (haccepts.2 hle), get?_put, if_pos rfl]
        rwa [if_pos hle] at hnewest
      · rw [if_neg (mt haccepts.1 hle), hq]
        rwa [if_neg hle] at hnewest

theorem shown_run (calls : List Call) (document : Location) :
    Shown (since t calls document) ((run t calls).get? document) := by
  induction calls using List.reverseRecOn with
  | nil => simp [Shown, since, run, empty, get?]
  | append_singleton calls call ih =>
      rw [run_concat]
      by_cases hclears : call.clears t document
      · rw [since_concat_of_clears hclears, Call.get?_after_of_clears hclears]
        rfl
      · rw [since_concat hclears]
        cases hp : call.publication? t document with
        | none =>
            rw [Call.get?_after_of_neither hclears hp, Option.toList_none, List.append_nil]
            exact ih
        | some p =>
            obtain rfl := Call.document_of_publication? hp
            rw [Call.after_of_publication? hp, Option.toList_some]
            exact ih.publish

theorem documents_publish (ps : Publications) (p : Publication) : (ps.publish p).1.documents =
    if p.document ∈ ps.documents then ps.documents else ps.documents ++ [p.document] := by
  rw [publish]
  by_cases haccepts : ps.accepts p
  · rw [if_pos haccepts, documents_put]
  · have hmem : p.document ∈ ps.documents := by
      rw [mem_documents_iff, Option.isSome_iff_ne_none]
      exact fun hnone => haccepts (accepts_iff.2 (by simp [hnone]))
    rw [if_neg haccepts, if_pos hmem]

theorem mem_documents_run_iff : document ∈ (run t calls).documents ↔ since t calls document ≠ [] := by
  have hshown := shown_run (t := t) calls document
  rw [mem_documents_iff]
  cases hp : (run t calls).get? document with
  | none =>
      rw [hp] at hshown
      simpa using (show since t calls document = [] from hshown)
  | some p =>
      rw [hp] at hshown
      simpa using List.ne_nil_of_mem hshown.mem

theorem since_append {more : List Call} (hmore : ∀ call ∈ more, ¬call.clears t document) :
    since t (calls ++ more) document =
      since t calls document ++ more.filterMap (Call.publication? t document) := by
  induction more using List.reverseRecOn with
  | nil => simp
  | append_singleton more call ih =>
      rw [← List.append_assoc, since_concat (hmore call (by simp)),
        ih fun c hc => hmore c (List.mem_append_left _ hc), List.filterMap_append, List.append_assoc]
      cases hp : call.publication? t document <;> simp [hp]

theorem Opens.lt (h : Opens t calls document n) : n < calls.length := by
  obtain ⟨before, call, after, rfl, rfl, _⟩ := h
  simp

theorem Opens.concat (h : Opens t calls document n) (hcall : ¬call.clears t document) :
    Opens t (calls ++ [call]) document n := by
  obtain ⟨before, c, after, rfl, hn, hnone, hc, hafter⟩ := h
  refine ⟨before, c, after ++ [call], by simp, hn, hnone, hc, fun c hc => ?_⟩
  rcases List.mem_append.1 hc with hc | hc
  · exact hafter c hc
  · rwa [List.mem_singleton.1 hc]

theorem Opens.le {m : Nat} (hm : Opens t calls document m) (hn : Opens t calls document n) : n ≤ m := by
  obtain ⟨before, c, after, rfl, rfl, _, hc, hafter⟩ := hm
  obtain ⟨before', c', after', heq, rfl, hnone, _, _⟩ := hn
  by_contra! hlt
  obtain ⟨middle, rfl⟩ : ∃ middle, before' = before ++ c :: middle := by
    rcases List.append_eq_append_iff.1 heq with ⟨as, rfl, has⟩ | ⟨bs, rfl, _⟩
    · cases as with
      | nil => simp at hlt
      | cons a as =>
          obtain ⟨rfl, _⟩ := List.cons.inj has
          exact ⟨as, rfl⟩
    · rw [List.length_append] at hlt
      omega
  have hmiddle : ∀ call ∈ c :: middle, ¬call.clears t document := by
    obtain ⟨p, hp⟩ := Option.isSome_iff_exists.1 hc
    rw [List.append_assoc, List.append_cancel_left_eq, List.cons_append, List.cons.injEq] at heq
    refine List.forall_mem_cons.2 ⟨Call.not_clears_of_publication? hp, fun call hcall => ?_⟩
    exact hafter call (heq.2 ▸ List.mem_append_left _ hcall)
  obtain ⟨p, hp⟩ := Option.isSome_iff_exists.1 hc
  rw [since_append hmiddle, List.filterMap_cons_some hp] at hnone
  simp at hnone

theorem Opens.unique {m : Nat} (hm : Opens t calls document m) (hn : Opens t calls document n) : m = n :=
  Nat.le_antisymm (hn.le hm) (hm.le hn)

/-- The documents on show, by the calls that opened them. -/
def InOrder (t : FileTree) (calls : List Call) (documents : List Location) : Prop :=
  (∀ d ∈ documents, ∃ n, Opens t calls d n) ∧
    documents.Pairwise fun d e => ∀ m n, Opens t calls d m → Opens t calls e n → m < n

theorem inOrder_nil (calls : List Call) : InOrder t calls [] := ⟨by simp, .nil⟩

theorem InOrder.sublist {ds es : List Location} (h : InOrder t calls es) (hds : ds.Sublist es)
    (hkept : ∀ d ∈ ds, ¬call.clears t d) : InOrder t (calls ++ [call]) ds := by
  refine ⟨fun d hd => ?_, ?_⟩
  · obtain ⟨n, hn⟩ := h.1 d (hds.subset hd)
    exact ⟨n, hn.concat (hkept d hd)⟩
  · refine (h.2.sublist hds).imp_of_mem fun {d e} hd he hlt m n hm hn => ?_
    obtain ⟨m', hm'⟩ := h.1 d (hds.subset hd)
    obtain ⟨n', hn'⟩ := h.1 e (hds.subset he)
    obtain rfl := hm.unique (hm'.concat (hkept d hd))
    obtain rfl := hn.unique (hn'.concat (hkept e he))
    exact hlt m n hm' hn'

theorem InOrder.concat {ds : List Location} (h : InOrder t calls ds) (hkept : ∀ d, ¬call.clears t d)
    (hnone : since t calls document = []) (hcall : (call.publication? t document).isSome) :
    InOrder t (calls ++ [call]) (ds ++ [document]) := by
  have hopens : Opens t (calls ++ [call]) document calls.length :=
    ⟨calls, call, [], rfl, rfl, hnone, hcall, by simp⟩
  have hds : InOrder t (calls ++ [call]) ds := h.sublist (List.Sublist.refl ds) fun d _ => hkept d
  refine ⟨fun d hd => ?_, List.pairwise_append.2 ⟨hds.2, List.pairwise_singleton _ _, ?_⟩⟩
  · rcases List.mem_append.1 hd with hd | hd
    · exact hds.1 d hd
    · exact ⟨_, List.mem_singleton.1 hd ▸ hopens⟩
  · intro d hd e he m n hm hn
    obtain rfl := List.mem_singleton.1 he
    obtain ⟨m', hm'⟩ := h.1 d hd
    rw [hn.unique hopens, hm.unique (hm'.concat (hkept d))]
    exact hm'.lt

theorem inOrder_documents (calls : List Call) : InOrder t calls (run t calls).documents := by
  induction calls using List.reverseRecOn with
  | nil => exact inOrder_nil []
  | append_singleton calls call ih =>
      rw [run_concat]
      cases call with
      | publish g =>
          have hkept : ∀ d, ¬(Call.publish g).clears t d := by simp [Call.clears]
          have hsame : InOrder t (calls ++ [.publish g]) (run t calls).documents :=
            ih.sublist (List.Sublist.refl _) fun d _ => hkept d
          cases hpath : t.canonical g.path with
          | error e =>
              rw [Call.after_of_error hpath rfl]
              exact hsame
          | ok document =>
              rw [Call.after_publish hpath, documents_publish]
              split
              · exact hsame
              · rename_i hnew
                refine ih.concat hkept ?_ (by simp [Call.publication?, hpath, Except.toOption])
                exact not_not.1 (mt mem_documents_run_iff.2 hnew)
      | clear path =>
          cases hpath : t.canonical path with
          | error e =>
              rw [Call.after_of_error hpath rfl]
              refine ih.sublist (List.Sublist.refl _) fun d _ => ?_
              simp [Call.clears, hpath, Except.toOption]
          | ok document =>
              rw [Call.after_clear hpath, documents_clear]
              refine ih.sublist List.filter_sublist fun d hd => ?_
              have hne : d ≠ document := of_decide_eq_true (List.mem_filter.1 hd).2
              simpa [Call.clears, hpath, Except.toOption] using hne.symm
      | clearAll => exact inOrder_nil _

theorem InOrder.nodup {ds : List Location} (h : InOrder t calls ds) : ds.Nodup := by
  refine h.2.imp_of_mem fun {d e} hd _ hlt hde => ?_
  obtain ⟨n, hn⟩ := h.1 d hd
  exact Nat.lt_irrefl n (hlt n n hn (hde ▸ hn))

theorem IsNewest.unique {qs : List Publication} (hp : IsNewest qs p) (hq : IsNewest qs q) : p = q := by
  obtain ⟨before, after, rfl, _, hafter⟩ := id hp
  obtain ⟨before', after', heq, _, hafter'⟩ := id hq
  rcases List.append_eq_append_iff.1 heq with ⟨as, rfl, has⟩ | ⟨bs, rfl, hbs⟩
  · cases as with
    | nil => exact (List.cons.inj has).1
    | cons a as =>
        have hmem : q ∈ after := by simp [(List.cons.inj has).2]
        exact absurd (hafter q hmem) (Int.not_lt.2 (hq.version_le hp.mem))
  · cases bs with
    | nil => exact (List.cons.inj hbs).1.symm
    | cons b bs =>
        have hmem : p ∈ after' := by simp [(List.cons.inj hbs).2]
        exact absurd (hafter' p hmem) (Int.not_lt.2 (hp.version_le hq.mem))

theorem Shown.unique {qs : List Publication} {a b : Option Publication} (ha : Shown qs a) (hb : Shown qs b) :
    a = b := by
  cases a <;> cases b
  · rfl
  · exact absurd ha (List.ne_nil_of_mem (IsNewest.mem hb))
  · exact absurd hb (List.ne_nil_of_mem (IsNewest.mem ha))
  · exact congrArg some (IsNewest.unique ha hb)

theorem IsNewest.append_perm {qs rs rs' : List Publication} (h : IsNewest (qs ++ rs) p)
    (hperm : rs.Perm rs') (hversions : (rs.map (·.version)).Nodup) : IsNewest (qs ++ rs') p := by
  have hle : ∀ q ∈ qs ++ rs', q.version ≤ p.version := fun q hq =>
    h.version_le ((hperm.append_left qs).mem_iff.2 hq)
  by_cases hp : p ∈ rs
  · obtain ⟨before, after, rfl⟩ := List.append_of_mem (hperm.mem_iff.1 hp)
    have hne : ∀ q ∈ after, p.version ≠ q.version := by
      rw [(hperm.map _).nodup_iff, List.map_append, List.map_cons] at hversions
      have hnodup := (List.nodup_cons.1 (List.nodup_append.1 hversions).2.1).1
      exact fun q hq he => hnodup (he ▸ List.mem_map_of_mem hq)
    refine ⟨qs ++ before, after, by simp, fun q hq => hle q ?_, fun q hq => ?_⟩
    · rw [← List.append_assoc]
      exact List.mem_append_left _ hq
    · exact Int.lt_iff_le_and_ne.2 ⟨hle q (by simp [hq]), Ne.symm (hne q hq)⟩
  · obtain ⟨before, after, heq, hbefore, hafter⟩ := h
    rcases List.append_eq_append_iff.1 heq with ⟨as, rfl, has⟩ | ⟨bs, rfl, hbs⟩
    · exact absurd (by simp [has]) hp
    · cases bs with
      | nil => exact absurd (by simp [← show p :: after = rs from hbs]) hp
      | cons b bs =>
          obtain ⟨rfl, rfl⟩ := List.cons.inj hbs
          refine ⟨before, bs ++ rs', by simp, hbefore, fun q hq => ?_⟩
          exact hafter q ((hperm.append_left bs).mem_iff.2 hq)

theorem Shown.append_perm {qs rs rs' : List Publication} {a : Option Publication} (h : Shown (qs ++ rs) a)
    (hperm : rs.Perm rs') (hversions : (rs.map (·.version)).Nodup) : Shown (qs ++ rs') a := by
  cases a with
  | none =>
      obtain ⟨rfl, rfl⟩ := List.append_eq_nil_iff.1 h
      rw [hperm.symm.eq_nil]
      exact rfl
  | some p => exact IsNewest.append_perm h hperm hversions

theorem accepts_run_iff : (run t calls).accepts p ↔ ∀ q ∈ since t calls p.document, q.version ≤ p.version := by
  have hshown := shown_run (t := t) calls p.document
  rw [accepts_iff]
  cases hq : (run t calls).get? p.document with
  | none =>
      rw [hq] at hshown
      simp [show since t calls p.document = [] from hshown]
  | some q =>
      rw [hq] at hshown
      have hshown : IsNewest (since t calls p.document) q := hshown
      simp only [Option.some.injEq, forall_eq']
      exact ⟨fun hle r hr => Int.le_trans (hshown.version_le hr) hle, fun hall => hall q hshown.mem⟩

theorem get?_run_append_perm {reports reports' : List Call} (hreports : ∀ call ∈ reports, call.isPublish)
    (hperm : reports.Perm reports') (document : Location)
    (hversions : ((reports.filterMap (Call.publication? t document)).map (·.version)).Nodup) :
    (run t (calls ++ reports')).get? document = (run t (calls ++ reports)).get? document := by
  have hkept : ∀ call : Call, call.isPublish → ¬call.clears t document := by
    intro call hcall
    cases call with
    | publish => simp [Call.clears]
    | clear | clearAll => cases hcall
  have hshown := shown_run (t := t) (calls ++ reports) document
  have hshown' := shown_run (t := t) (calls ++ reports') document
  rw [since_append fun call hcall => hkept call (hreports call hcall)] at hshown
  rw [since_append fun call hcall => hkept call (hreports call (hperm.mem_iff.2 hcall))] at hshown'
  exact hshown'.unique (hshown.append_perm (hperm.filterMap _) hversions)

theorem shownVersion_eq (hpath : t.canonical path = .ok document) :
    Document.shownVersion t ps path = .ok ((ps.get? document).map (·.version)) := by
  simp only [Document.shownVersion, Document.locate, hpath]
  rfl

theorem shown_eq (hpath : t.canonical path = .ok document) :
    Document.shown t ps path = .ok (((ps.get? document).map (·.diagnostics)).getD []) := by
  simp only [Document.shown, Document.locate, hpath]
  rfl

theorem shown_congr {ps' : Publications} (h : ∀ document, ps'.get? document = ps.get? document) (path : Path) :
    Document.shownVersion t ps' path = Document.shownVersion t ps path ∧
      Document.shown t ps' path = Document.shown t ps path := by
  cases hpath : t.canonical path with
  | error e => simp [Document.shownVersion, Document.shown, Document.locate, hpath, Except.mapError]
  | ok document =>
      rw [shownVersion_eq hpath, shownVersion_eq hpath, shown_eq hpath, shown_eq hpath, h]
      exact ⟨rfl, rfl⟩

/-- In whatever order publications come, the newest of a document stay on show until it is cleared. -/
theorem newest_version_shown (t : FileTree) (calls : List Call) :
    (∀ path document, t.canonical path = .ok document →
      (since t calls document = [] → Document.shownVersion t (run t calls) path = .ok none ∧
        Document.shown t (run t calls) path = .ok []) ∧
      (since t calls document ≠ [] → ∃ p, IsNewest (since t calls document) p ∧
        Document.shownVersion t (run t calls) path = .ok (some p.version) ∧
        Document.shown t (run t calls) path = .ok p.diagnostics)) ∧
    (∀ g document, t.canonical (Publishing.path g) = .ok document → ∃ ps accepted,
      g.perform t (run t calls) = .ok (ps, accepted) ∧
      (accepted = true ↔ ∀ p ∈ since t calls document, p.version ≤ g.version) ∧
      (accepted = false → ps = run t calls)) ∧
    (∀ call path document, Call.path? call = some path → t.canonical path ≠ .ok document →
      (run t (calls ++ [call])).get? document = (run t calls).get? document) ∧
    (run t calls).documents.Nodup ∧
    (∀ document, document ∈ (run t calls).documents ↔ since t calls document ≠ []) ∧
    InOrder t calls (run t calls).documents ∧
    ∀ reports reports' : List Call, (∀ call ∈ reports, call.isPublish) → reports.Perm reports' →
      (∀ document, ((reports.filterMap (Call.publication? t document)).map (·.version)).Nodup) →
      ∀ path, Document.shownVersion t (run t (calls ++ reports')) path =
          Document.shownVersion t (run t (calls ++ reports)) path ∧
        Document.shown t (run t (calls ++ reports')) path =
          Document.shown t (run t (calls ++ reports)) path := by
  refine ⟨fun path document hpath => ⟨fun hnone => ?_, fun hsome => ?_⟩, fun g document hpath => ?_,
    fun call path document hcall hpath => ?_, (inOrder_documents calls).nodup,
    fun _ => mem_documents_run_iff, inOrder_documents calls,
    fun reports reports' hreports hperm hversions path => ?_⟩
  · have hget : (run t calls).get? document = none := by
      simpa using mt mem_documents_iff.2 (mt mem_documents_run_iff.1 (not_not.2 hnone))
    rw [shownVersion_eq hpath, shown_eq hpath, hget]
    exact ⟨rfl, rfl⟩
  · obtain ⟨p, hget⟩ := Option.isSome_iff_exists.1 (mem_documents_iff.1 (mem_documents_run_iff.2 hsome))
    have hshown := shown_run (t := t) calls document
    rw [hget] at hshown
    rw [shownVersion_eq hpath, shown_eq hpath, hget]
    exact ⟨p, hshown, rfl, rfl⟩
  · refine ⟨((run t calls).publish (g.publication document)).1,
      ((run t calls).publish (g.publication document)).2, Publishing.perform_of_canonical hpath, ?_,
      fun hrefused => ?_⟩
    · rw [publish_snd, accepts_run_iff]
      rfl
    · exact publish_of_not_accepts (by rwa [publish_snd] at hrefused)
  · rw [run_concat]
    exact Call.get?_after_of_elsewhere hcall hpath
  · exact shown_congr (fun document => get?_run_append_perm hreports hperm document (hversions document)) path

/-- The second version of `d` is overtaken by the third, which names it in another way. -/
def overtaken : List Call :=
  [.publish (.direct (.ofString "d") 1 [⟨1, 0, 1, .error, "first", []⟩]),
    .publish (.direct (.ofString "sub/../d") 3 [⟨1, 0, 1, .error, "third", []⟩]),
    .publish (.report ⟨(Path.ofString "d").names, 2, [⟨1, 0, 1, .error, "second", []⟩]⟩)]

theorem overtaken_newest_version_shown :
    FileTree.empty.canonical (.ofString "d") = .ok (Path.ofString "d").names ∧
      Document.shownVersion .empty (run .empty overtaken) (.ofString "d") = .ok (some 3) ∧
      Document.shown .empty (run .empty overtaken) (.ofString "d") =
        .ok [⟨1, 0, 1, .error, "third", []⟩] := by
  have hpath : FileTree.empty.canonical (.ofString "d") = .ok (Path.ofString "d").names := by decide +kernel
  have hsince : since .empty overtaken (Path.ofString "d").names =
      [⟨(Path.ofString "d").names, 1, [⟨1, 0, 1, .error, "first", []⟩]⟩] ++
        ⟨(Path.ofString "d").names, 3, [⟨1, 0, 1, .error, "third", []⟩]⟩ ::
        [⟨(Path.ofString "d").names, 2, [⟨1, 0, 1, .error, "second", []⟩]⟩] := by decide +kernel
  obtain ⟨_, hsome⟩ := (newest_version_shown .empty overtaken).1 _ _ hpath
  obtain ⟨p, hp, hversion, hshown⟩ := hsome (by simp [hsince])
  obtain rfl := hp.unique ⟨_, _, hsince, by simp, by simp⟩
  exact ⟨hpath, hversion, hshown⟩

end Publications

end LayeredConfig
