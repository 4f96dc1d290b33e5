import TripleGrammar.Proofs.EnteredNodes
import TripleGrammar.Proofs.Instances
import TripleGrammar.Rule.Draft

/-!
# Drafts that are made at the same time

Several rules can be drafted side by side, and nothing keeps a handle of one draft from being used
on another. Every draft counts its nodes from zero, so ids do not tell. Here the calls on all drafts
stand in one list, in whatever order, and a handle is named by the draft and the node that it was
issued for. What a draft comes to is said by the calls on it alone.
-/

namespace TripleGrammar

namespace Rule

/-! ### Calls -/

/-- Names the handle that a draft has issued for one of its nodes. Drafts are counted as they are
started, and the nodes of a draft as they are asked for. -/
structure NodeRef where
  draft : Nat
  node : Nat
deriving DecidableEq

namespace NodeRef

def id (ref : NodeRef) : NodeId := ⟨.ofNat ref.node⟩

/-- The handle itself, if the first draft is started in the scope `base`. -/
def handle (base : Nat) (ref : NodeRef) : Handle := { scope := base + ref.draft, id := ref.id }

end NodeRef

/-- A call on a draft. -/
inductive Step where
  | node (kind : String) (domain : Domain) (action : Action)
  | defaultCorrespondence (kind : String) (action : Action)
  | edge (tail head : NodeRef) (kind : Option String) (action : Action)

namespace Step

/-- The node that the call asks for, once it has an id. -/
def node? : Step → Option (NodeId → Node)
  | node kind domain action => some fun id => { id, kind, domain, action := some action }
  | defaultCorrespondence kind action => some fun id =>
      { id, kind, domain := .correspondence, action := some action, isDefault := true }
  | edge _ _ _ _ => none

def edge? : Step → Option Edge
  | node _ _ _ => none
  | defaultCorrespondence _ _ => none
  | edge tail head kind action => some
      { tail := tail.id, head := head.id, kind, action := some action }

/-- The edge as it is drawn between handles. -/
def draftEdge? (base : Nat) : Step → Option DraftEdge
  | node _ _ _ => none
  | defaultCorrespondence _ _ => none
  | edge tail head kind action => some
      { tail := tail.handle base, head := head.handle base, kind, action }

/-- The handles that the call uses, tail before head. -/
def refs : Step → List NodeRef
  | node _ _ _ => []
  | defaultCorrespondence _ _ => []
  | edge tail head _ _ => [tail, head]

end Step

/-- The nodes that the calls ask for, with the ids zero, one, two and so on. -/
def nodesOf (steps : List Step) : List Node :=
  (steps.filterMap Step.node?).mapIdx fun k n => n ⟨.ofNat k⟩

def edgesOf (steps : List Step) : List Edge := steps.filterMap Step.edge?

def refsOf (steps : List Step) : List NodeRef := steps.flatMap Step.refs

/-- A call of whoever makes the drafts. -/
inductive Call where
  | start (name : String)
  | on (draft : Nat) (step : Step)

namespace Call

def name? : Call → Option String
  | start name => some name
  | on _ _ => none

def stepOn? (i : Nat) : Call → Option Step
  | start _ => none
  | on j step => if j = i then some step else none

end Call

/-- The names of the drafts, as they are started. -/
def startedNames (calls : List Call) : List String := calls.filterMap Call.name?

/-- The calls on one of the drafts. -/
def stepsOn (i : Nat) (calls : List Call) : List Step := calls.filterMap (Call.stepOn? i)

/-! ### What the calls do -/

/-- A draft in the making, with the handles that it has issued. -/
structure Desk where
  draft : Draft
  handles : List Handle := []

/-- All drafts in the making. -/
structure Workshop where
  scopes : Scopes := {}
  desks : List Desk := []

namespace Workshop

def handle? (w : Workshop) (ref : NodeRef) : Option Handle :=
  w.desks[ref.draft]?.bind fun k => k.handles[ref.node]?

/-- Nothing comes of a call that uses a handle that has not been issued. -/
def performOn (w : Workshop) (k : Desk) : Step → Option Desk
  | .node kind domain action =>
    let (h, draft) := k.draft.node kind domain action
    some { draft, handles := k.handles ++ [h] }
  | .defaultCorrespondence kind action =>
    let (h, draft) := k.draft.defaultCorrespondence kind action
    some { draft, handles := k.handles ++ [h] }
  | .edge tail head kind action => do
    let tail ← w.handle? tail
    let head ← w.handle? head
    return { k with draft := k.draft.edge tail head kind action }

def perform (w : Workshop) : Call → Option Workshop
  | .start name =>
    let (draft, scopes) := Draft.start name w.scopes
    some { scopes, desks := w.desks ++ [{ draft }] }
  | .on i step => do
    let k ← w.desks[i]?
    let k ← w.performOn k step
    return { w with desks := w.desks.set i k }

/-- The drafts as the calls make them, one after the other. -/
def run (scopes : Scopes) (calls : List Call) : Option Workshop :=
  calls.foldlM perform { scopes }

end Workshop

/-! ### Each draft by itself -/

variable {base i : Nat} {name : String} {steps : List Step} {step : Step} {calls : List Call}
  {call : Call} {w w' : Workshop} {k : Desk} {ref : NodeRef} {h : Handle}

/-- What the calls on a draft make of it. -/
def deskOf (base i : Nat) (name : String) (steps : List Step) : Desk where
  draft :=
    { name
      scope := base + i
      ids := ({} : IdSupply).skip (nodesOf steps).length
      nodes := nodesOf steps
      edges := steps.filterMap (Step.draftEdge? base) }
  handles := (List.range (nodesOf steps).length).map fun n => NodeRef.handle base ⟨i, n⟩

lemma nodesOf_append_node {n : NodeId → Node} (hn : step.node? = some n) :
    nodesOf (steps ++ [step]) = nodesOf steps ++ [n ⟨.ofNat (nodesOf steps).length⟩] := by
  unfold nodesOf
  rw [List.filterMap_append, List.filterMap_cons_some hn, List.filterMap_nil, List.mapIdx_concat,
    List.length_mapIdx]

lemma nodesOf_append_edge (hn : step.node? = none) :
    nodesOf (steps ++ [step]) = nodesOf steps := by
  unfold nodesOf
  rw [List.filterMap_append, List.filterMap_cons_none hn, List.filterMap_nil, List.append_nil]

/-- A call that asks for a node gets it with the id that is next. -/
lemma deskOf_append_node {n : NodeId → Node} (hn : step.node? = some n)
    (he : step.draftEdge? base = none) :
    let k := deskOf base i name steps
    deskOf base i name (steps ++ [step]) =
      { draft :=
          { k.draft with
            ids := k.draft.ids.advance
            nodes := k.draft.nodes ++ [n k.draft.ids.next] }
        handles := k.handles ++ [{ scope := k.draft.scope, id := k.draft.ids.next }] } := by
  unfold deskOf
  rw [nodesOf_append_node hn, List.filterMap_append, List.filterMap_cons_none he,
    List.length_append, List.length_singleton, ← IdSupply.advance_skip, List.range_succ,
    List.map_append]
  simp [IdSupply.next_skip_empty, NodeRef.handle, NodeRef.id]

lemma deskOf_append_edge {e : DraftEdge} (hn : step.node? = none)
    (he : step.draftEdge? base = some e) :
    let k := deskOf base i name steps
    deskOf base i name (steps ++ [step]) =
      { k with draft := { k.draft with edges := k.draft.edges ++ [e] } } := by
  unfold deskOf
  rw [nodesOf_append_edge hn, List.filterMap_append, List.filterMap_cons_some he,
    List.filterMap_nil]

lemma getElem?_handles_iff {n : Nat} : (deskOf base i name steps).handles[n]? = some h ↔
    h = NodeRef.handle base ⟨i, n⟩ ∧ n < (nodesOf steps).length := by
  simp only [deskOf, List.getElem?_map, Option.map_eq_some_iff, List.getElem?_eq_some_iff,
    List.length_range, List.getElem_range]
  constructor
  · rintro ⟨_, ⟨hlt, rfl⟩, rfl⟩
    exact ⟨rfl, hlt⟩
  · rintro ⟨rfl, hlt⟩
    exact ⟨n, ⟨hlt, rfl⟩, rfl⟩

/-- A call on a draft that has come of the calls on it so far. -/
lemma performOn_deskOf (hhandle : ∀ ref h, w.handle? ref = some h → h = ref.handle base)
    (hk : w.performOn (deskOf base i name steps) step = some k) :
    k = deskOf base i name (steps ++ [step]) ∧ ∀ ref ∈ step.refs, ∃ h, w.handle? ref = some h := by
  cases step with
  | node kind domain action =>
    have hdesk : deskOf base i name (steps ++ [.node kind domain action]) = _ :=
      deskOf_append_node rfl rfl
    obtain rfl := Option.some.inj hk
    exact ⟨hdesk.symm, by simp [Step.refs]⟩
  | defaultCorrespondence kind action =>
    have hdesk : deskOf base i name (steps ++ [.defaultCorrespondence kind action]) = _ :=
      deskOf_append_node rfl rfl
    obtain rfl := Option.some.inj hk
    exact ⟨hdesk.symm, by simp [Step.refs]⟩
  | edge tail head kind action =>
    obtain ⟨t, ht, hk⟩ := Option.bind_eq_some_iff.mp hk
    obtain ⟨h, hh, hk⟩ := Option.bind_eq_some_iff.mp hk
    obtain rfl := Option.some.inj hk
    obtain rfl := hhandle tail t ht
    obtain rfl := hhandle head h hh
    refine ⟨(deskOf_append_edge rfl rfl).symm, ?_⟩
    simp only [Step.refs, List.forall_mem_cons, List.not_mem_nil, false_implies, implies_true,
      and_true]
    exact ⟨⟨_, ht⟩, _, hh⟩

/-! ### All drafts together -/

lemma stepsOn_append_start (i : Nat) (name : String) :
    stepsOn i (calls ++ [.start name]) = stepsOn i calls := by
  unfold stepsOn
  rw [List.filterMap_append]
  exact List.append_nil _

lemma stepsOn_append_on (i j : Nat) (step : Step) :
    stepsOn i (calls ++ [.on j step]) = stepsOn i calls ++ if j = i then [step] else [] := by
  unfold stepsOn
  rw [List.filterMap_append]
  by_cases hj : j = i <;> simp [Call.stepOn?, hj]

lemma length_nodesOf_stepsOn_le (i : Nat) (calls : List Call) (call : Call) :
    (nodesOf (stepsOn i calls)).length ≤ (nodesOf (stepsOn i (calls ++ [call]))).length := by
  simp only [nodesOf, stepsOn, List.length_mapIdx, List.filterMap_append, List.length_append]
  omega

/-- The drafts are those of the calls so far: each is in a scope of its own, it has come of the
calls on it alone, and these use handles that have been issued. -/
structure Follows (base : Nat) (calls : List Call) (w : Workshop) : Prop where
  next_eq : w.scopes.next = base + (startedNames calls).length
  desks_eq : w.desks = (startedNames calls).mapIdx fun i name => deskOf base i name (stepsOn i calls)
  started : ∀ i, stepsOn i calls ≠ [] → i < (startedNames calls).length
  issued : ∀ i, ∀ ref ∈ refsOf (stepsOn i calls),
    ref.node < (nodesOf (stepsOn ref.draft calls)).length

namespace Follows

lemma getElem?_desks (hw : Follows base calls w) (i : Nat) : w.desks[i]? =
    (startedNames calls)[i]?.map fun name => deskOf base i name (stepsOn i calls) := by
  rw [hw.desks_eq, List.getElem?_mapIdx]

lemma handle?_eq_some_iff (hw : Follows base calls w) : w.handle? ref = some h ↔
    h = ref.handle base ∧ ref.node < (nodesOf (stepsOn ref.draft calls)).length := by
  simp only [Workshop.handle?, hw.getElem?_desks, Option.bind_eq_some_iff, Option.map_eq_some_iff]
  constructor
  · rintro ⟨_, ⟨name, -, rfl⟩, hhandle⟩
    exact getElem?_handles_iff.mp hhandle
  · rintro ⟨rfl, hlt⟩
    have hsteps : stepsOn ref.draft calls ≠ [] := by
      intro hnil
      rw [hnil] at hlt
      exact absurd hlt (Nat.not_lt_zero _)
    have hname := List.getElem?_eq_getElem (hw.started ref.draft hsteps)
    exact ⟨_, ⟨_, hname, rfl⟩, getElem?_handles_iff.mpr ⟨rfl, hlt⟩⟩

lemma start (hw : Follows base calls w) (h : w.perform (.start name) = some w') :
    Follows base (calls ++ [.start name]) w' := by
  obtain rfl := Option.some.inj h
  have hnames : startedNames (calls ++ [.start name]) = startedNames calls ++ [name] :=
    List.filterMap_append
  have hnone : stepsOn (startedNames calls).length calls = [] := by
    by_contra hne
    exact Nat.lt_irrefl _ (hw.started _ hne)
  constructor
  · rw [hnames, List.length_append, ← Nat.add_assoc, ← hw.next_eq]
    rfl
  · rw [hnames, List.mapIdx_concat]
    simp only [stepsOn_append_start, hnone, ← hw.desks_eq]
    unfold deskOf
    rw [← hw.next_eq]
    rfl
  · intro i hi
    rw [hnames, List.length_append]
    exact Nat.lt_add_right _ (hw.started i (stepsOn_append_start i name ▸ hi))
  · intro i
    simp only [stepsOn_append_start]
    exact hw.issued i

lemma on (hw : Follows base calls w) (h : w.perform (.on i step) = some w') :
    Follows base (calls ++ [.on i step]) w' := by
  obtain ⟨k, hk, h⟩ := Option.bind_eq_some_iff.mp h
  obtain ⟨k', hk', h⟩ := Option.bind_eq_some_iff.mp h
  obtain rfl := Option.some.inj h
  have hnames : startedNames (calls ++ [.on i step]) = startedNames calls :=
    List.filterMap_append.trans (List.append_nil _)
  rw [hw.getElem?_desks] at hk
  obtain ⟨name, hname, rfl⟩ := Option.map_eq_some_iff.mp hk
  obtain ⟨rfl, hrefs⟩ := performOn_deskOf (fun ref h hh => (hw.handle?_eq_some_iff.mp hh).1) hk'
  obtain ⟨hi, rfl⟩ := List.getElem?_eq_some_iff.mp hname
  constructor
  · rw [hnames]
    exact hw.next_eq
  · refine List.ext_getElem? fun j => ?_
    rw [List.getElem?_set, hw.getElem?_desks, List.getElem?_mapIdx, hnames, stepsOn_append_on,
      hw.desks_eq, List.length_mapIdx]
    by_cases hj : i = j
    · subst hj
      simp [hi]
    · simp [hj]
  · intro j hj
    rw [hnames]
    rw [stepsOn_append_on] at hj
    by_cases hij : i = j
    · exact hij ▸ hi
    · exact hw.started j (by simpa [hij] using hj)
  · intro j ref href
    refine Nat.lt_of_lt_of_le ?_ (length_nodesOf_stepsOn_le ref.draft calls _)
    rw [stepsOn_append_on, refsOf, List.flatMap_append, List.mem_append] at href
    rcases href with hold | hnew
    · exact hw.issued j ref hold
    · have hmem : ref ∈ step.refs := by
        by_cases hij : i = j <;> simp [hij] at hnew
        exact hnew
      obtain ⟨h, hh⟩ := hrefs ref hmem
      exact (hw.handle?_eq_some_iff.mp hh).2

end Follows

lemma follows_foldlM (hw : Follows base calls w) {rest : List Call}
    (h : rest.foldlM Workshop.perform w = some w') : Follows base (calls ++ rest) w' := by
  induction rest generalizing calls w with
  | nil =>
    obtain rfl := Option.some.inj h
    rwa [List.append_nil]
  | cons call rest ih =>
    rw [List.foldlM_cons] at h
    obtain ⟨w₁, hw₁, hrest⟩ := Option.bind_eq_some_iff.mp h
    rw [← List.singleton_append, ← List.append_assoc]
    cases call with
    | start name => exact ih (hw.start hw₁) hrest
    | on i step => exact ih (hw.on hw₁) hrest

lemma follows_of_run {scopes : Scopes} (h : Workshop.run scopes calls = some w) :
    Follows scopes.next calls w := by
  have hstart : Follows scopes.next [] { scopes } :=
    ⟨rfl, rfl, fun i hi => absurd rfl hi, fun i ref href => by cases href⟩
  exact follows_foldlM hstart h

/-! ### What is built -/

lemma resolve_handle {d : Draft} (hscope : d.scope = base + i) (ref : NodeRef) :
    d.resolve (ref.handle base) =
      if ref.draft = i then .ok ref.id else .error (.foreignHandle ref.id d.name) := by
  unfold Draft.resolve NodeRef.handle
  rw [hscope]
  simp only [Nat.add_left_cancel_iff]

/-- The edges are resolved one after the other, up to the first handle of another draft. -/
lemma mapM_resolveEdge {d : Draft} (hscope : d.scope = base + i) (steps : List Step) :
    (steps.filterMap (Step.draftEdge? base)).mapM d.resolveEdge =
      match (refsOf steps).find? (·.draft != i) with
      | some ref => .error (.foreignHandle ref.id d.name)
      | none => .ok (edgesOf steps) := by
  induction steps with
  | nil => rfl
  | cons step steps ih =>
    cases step with
    | node kind domain action => exact ih
    | defaultCorrespondence kind action => exact ih
    | edge tail head kind action =>
      have hedges : (Step.edge tail head kind action :: steps).filterMap (Step.draftEdge? base) =
          { tail := tail.handle base, head := head.handle base, kind, action } ::
            steps.filterMap (Step.draftEdge? base) := rfl
      have hrefs : refsOf (.edge tail head kind action :: steps) =
          tail :: head :: refsOf steps := rfl
      rw [hedges, hrefs, List.mapM_cons, ih]
      unfold Draft.resolveEdge
      dsimp only
      rw [resolve_handle hscope, resolve_handle hscope]
      by_cases ht : tail.draft = i
      · by_cases hh : head.draft = i
        · rw [if_pos ht, if_pos hh, List.find?_cons_of_neg (by simp [ht]),
            List.find?_cons_of_neg (by simp [hh])]
          cases (refsOf steps).find? (·.draft != i) <;> rfl
        · rw [if_pos ht, if_neg hh, List.find?_cons_of_neg (by simp [ht]),
            List.find?_cons_of_pos (by simp [hh])]
          rfl
      · rw [if_neg ht, List.find?_cons_of_pos (by simp [ht])]
        rfl

/-! The parts that the calls ask for fit together. -/

lemma id_of_node? {n : NodeId → Node} (hn : step.node? = some n) (id : NodeId) :
    (n id).id = id := by
  cases step <;> cases hn <;> rfl

lemma exists_step_of_mem_nodesOf {m : Node} (hm : m ∈ nodesOf steps) :
    ∃ step ∈ steps, ∃ n id, step.node? = some n ∧ n id = m := by
  obtain ⟨k, hk, rfl⟩ := List.mem_mapIdx.mp hm
  obtain ⟨step, hstep, hn⟩ := List.mem_filterMap.mp (List.getElem_mem hk)
  exact ⟨step, hstep, _, _, hn, rfl⟩

lemma default_of_mem_nodesOf {m : Node} (hm : m ∈ nodesOf steps) (hdefault : m.isDefault = true) :
    m.domain = .correspondence := by
  obtain ⟨step, -, n, id, hn, rfl⟩ := exists_step_of_mem_nodesOf hm
  cases step with
  | node kind domain action =>
    cases hn
    cases hdefault
  | defaultCorrespondence kind action =>
    cases hn
    rfl
  | edge tail head kind action => cases hn

lemma tagged_of_mem_nodesOf {m : Node} (hm : m ∈ nodesOf steps) : m.action.isSome := by
  obtain ⟨step, -, n, id, hn, rfl⟩ := exists_step_of_mem_nodesOf hm
  cases step <;> cases hn <;> rfl

lemma ids_nodesOf (steps : List Step) : (nodesOf steps).map (·.id) =
    (List.range (nodesOf steps).length).map fun k => ⟨.ofNat k⟩ := by
  refine List.ext_getElem (by simp) fun k hk _ => ?_
  have hlt : k < (steps.filterMap Step.node?).length := by simpa [nodesOf] using hk
  obtain ⟨step, -, hn⟩ := List.mem_filterMap.mp (List.getElem_mem hlt)
  rw [List.getElem_map, List.getElem_map, List.getElem_range]
  unfold nodesOf
  rw [List.getElem_mapIdx]
  exact id_of_node? hn _

lemma nodup_ids_nodesOf (hcount : (nodesOf steps).length ≤ 2 ^ 64) :
    ((nodesOf steps).map (·.id)).Nodup := by
  rw [ids_nodesOf]
  refine List.nodup_range.map_on fun k hk k' hk' heq => ?_
  have hraw := congrArg (fun id : NodeId => id.raw.toNat) heq
  simp only [UInt64.toNat_ofNat'] at hraw
  rw [List.mem_range] at hk hk'
  omega

lemma of_mem_edgesOf {e : Edge} (he : e ∈ edgesOf steps) : e.action.isSome ∧
    ∃ tail ∈ refsOf steps, ∃ head ∈ refsOf steps, e.tail = tail.id ∧ e.head = head.id := by
  obtain ⟨step, hstep, he⟩ := List.mem_filterMap.mp he
  cases step with
  | node kind domain action => cases he
  | defaultCorrespondence kind action => cases he
  | edge tail head kind action =>
    cases he
    exact ⟨rfl, tail, List.mem_flatMap.mpr ⟨_, hstep, by simp [Step.refs]⟩,
      head, List.mem_flatMap.mpr ⟨_, hstep, by simp [Step.refs]⟩, rfl, rfl⟩

lemma build_eq_error {d : Draft} {err : RuleError} (h : d.edges.mapM d.resolveEdge = .error err) :
    d.build = .error err := by
  unfold Draft.build
  rw [h]
  rfl

lemma build_eq_ofGraph {d : Draft} {edges : List Edge} {g : Graph}
    (h : d.edges.mapM d.resolveEdge = .ok edges) (hg : Graph.ofParts d.nodes edges = .ok g) :
    d.build = ofGraph d.name g := by
  unfold Draft.build
  rw [h]
  simp only [bind, Except.bind]
  rw [hg]

/-- A draft that uses its own handles only can be built. -/
lemma exists_build_deskOf (hown : ∀ ref ∈ refsOf steps, ref.draft = i)
    (hissued : ∀ ref ∈ refsOf steps, ref.draft = i → ref.node < (nodesOf steps).length) :
    ∃ r, (deskOf base i name steps).draft.build = .ok r ∧ r.name = name ∧ r.graph.Tagged ∧
      r.graph.edges = edgesOf steps ∧
      ((nodesOf steps).length ≤ 2 ^ 64 → r.graph.nodes.Perm (nodesOf steps)) := by
  have hnone : (refsOf steps).find? (·.draft != i) = none :=
    List.find?_eq_none.mpr fun ref href => by simp [hown ref href]
  have hedges := mapM_resolveEdge (d := (deskOf base i name steps).draft) rfl steps
  rw [hnone] at hedges
  have hid : ∀ ref ∈ refsOf steps, ref.id ∈ (nodesOf steps).map (·.id) := by
    intro ref href
    rw [ids_nodesOf]
    exact List.mem_map.mpr ⟨ref.node, List.mem_range.mpr (hissued ref href (hown ref href)), rfl⟩
  have hends : ∀ e ∈ edgesOf steps,
      e.tail ∈ (nodesOf steps).map (·.id) ∧ e.head ∈ (nodesOf steps).map (·.id) := by
    intro e he
    obtain ⟨-, tail, ht, head, hh, htail, hhead⟩ := of_mem_edgesOf he
    exact ⟨htail ▸ hid tail ht, hhead ▸ hid head hh⟩
  have hdefault : ∀ n ∈ nodesOf steps, n.isDefault = true → n.domain = .correspondence :=
    fun n hn => default_of_mem_nodesOf hn
  obtain ⟨g, hg⟩ : ∃ g, Graph.ofParts (nodesOf steps) (edgesOf steps) = .ok g :=
    ⟨_, Graph.ofParts_eq hdefault hends⟩
  have hgedges : g.edges = edgesOf steps := Graph.edges_ofParts hg
  have hsub : g.nodes ⊆ nodesOf steps := Graph.nodes_ofParts hg ▸ Graph.recordsOf_subset _ _
  have htagged : g.Tagged :=
    ⟨fun n hn => tagged_of_mem_nodesOf (hsub hn), fun e he => (of_mem_edgesOf (hgedges ▸ he)).1⟩
  have hbuild := build_eq_ofGraph (d := (deskOf base i name steps).draft) hedges hg
  unfold ofGraph at hbuild
  rw [dif_pos htagged] at hbuild
  refine ⟨_, hbuild, rfl, htagged, hgedges, fun hcount => ?_⟩
  obtain ⟨g', hg', hperm, -⟩ := Graph.exists_ofParts (nodup_ids_nodesOf hcount) hdefault hends
  obtain rfl := Except.ok.inj (hg.symm.trans hg')
  exact hperm

lemma build_deskOf_of_foreign (hfirst : (refsOf steps).find? (·.draft != i) = some ref) :
    (deskOf base i name steps).draft.build = .error (.foreignHandle ref.id name) := by
  have hedges := mapM_resolveEdge (d := (deskOf base i name steps).draft) rfl steps
  rw [hfirst] at hedges
  exact build_eq_error hedges

lemma build_deskOf_eq_error_iff
    (hissued : ∀ ref ∈ refsOf steps, ref.draft = i → ref.node < (nodesOf steps).length)
    {err : RuleError} : (deskOf base i name steps).draft.build = .error err ↔
      ∃ ref, (refsOf steps).find? (·.draft != i) = some ref ∧ err = .foreignHandle ref.id name := by
  constructor
  · intro herr
    cases hfirst : (refsOf steps).find? (·.draft != i) with
    | some ref =>
      rw [build_deskOf_of_foreign hfirst] at herr
      exact ⟨ref, rfl, (Except.error.inj herr).symm⟩
    | none =>
      have hown : ∀ ref ∈ refsOf steps, ref.draft = i := by
        simpa using List.find?_eq_none.mp hfirst
      obtain ⟨r, hr, -⟩ := exists_build_deskOf hown hissued
      rw [hr] at herr
      cases herr
  · rintro ⟨ref, hfirst, rfl⟩
    exact build_deskOf_of_foreign hfirst

/-- Whatever is called on other drafts in between, a draft can be built unless an edge was added to
it by a handle of another draft, and then the first such handle is the error, tail before head. No
other error comes of it. The rule has one node for each node call on the draft, with the ids zero,
one, two and so on as far as they go, and one edge for each edge call, all of them with an action. -/
theorem interleaved_drafts_independent {scopes : Scopes} (hrun : Workshop.run scopes calls = some w)
    (hk : w.desks[i]? = some k) :
    ∃ name, (startedNames calls)[i]? = some name ∧
      ((∃ err, k.draft.build = .error err) ↔ ∃ ref ∈ refsOf (stepsOn i calls), ref.draft ≠ i) ∧
      (∀ err, k.draft.build = .error err ↔
        ∃ ref h, (refsOf (stepsOn i calls)).find? (·.draft != i) = some ref ∧
          w.handle? ref = some h ∧ err = .foreignHandle h.id name) ∧
      ((∀ ref ∈ refsOf (stepsOn i calls), ref.draft = i) →
        ∃ r, k.draft.build = .ok r ∧ r.name = name ∧ r.graph.Tagged ∧
          r.graph.edges = edgesOf (stepsOn i calls) ∧
          ((nodesOf (stepsOn i calls)).length ≤ 2 ^ 64 →
            r.graph.nodes.Perm (nodesOf (stepsOn i calls)))) := by
  have hw := follows_of_run hrun
  rw [hw.getElem?_desks] at hk
  obtain ⟨name, hname, rfl⟩ := Option.map_eq_some_iff.mp hk
  have hissued : ∀ ref ∈ refsOf (stepsOn i calls), ref.draft = i →
      ref.node < (nodesOf (stepsOn i calls)).length :=
    fun ref href hown => hown ▸ hw.issued i ref href
  refine ⟨name, hname, ?_, fun err => ?_, fun hown => exists_build_deskOf hown hissued⟩
  · simp only [build_deskOf_eq_error_iff hissued]
    rw [exists_comm]
    simp only [exists_and_left, exists_eq, and_true]
    rw [← Option.isSome_iff_exists, List.find?_isSome]
    simp only [bne_iff_ne]
  · rw [build_deskOf_eq_error_iff hissued]
    refine exists_congr fun ref => ?_
    constructor
    · rintro ⟨hfirst, rfl⟩
      have hlt := hw.issued i ref (List.mem_of_find?_eq_some hfirst)
      exact ⟨_, hfirst, hw.handle?_eq_some_iff.mpr ⟨rfl, hlt⟩, rfl⟩
    · rintro ⟨h, hfirst, hh, rfl⟩
      obtain ⟨rfl, -⟩ := hw.handle?_eq_some_iff.mp hh
      exact ⟨hfirst, rfl⟩

/-- Two drafts whose only source node and only target node have the same id. The second uses the
handle of the first and cannot be built. -/
theorem interleaved_drafts_independent_foreign :
    let calls : List Call :=
      [.start "first", .on 0 (.node "Queue" .source .create), .start "second",
       .on 1 (.node "CfnQueue" .target .preserve), .on 0 (.defaultCorrespondence "Axiom" .create),
       .on 1 (.edge ⟨1, 0⟩ ⟨1, 0⟩ none .preserve), .on 0 (.edge ⟨0, 1⟩ ⟨0, 0⟩ none .create),
       .on 1 (.edge ⟨1, 0⟩ ⟨0, 0⟩ (some "Link") .create)]
    ∃ w first second, Workshop.run { next := 3 } calls = some w ∧
      w.desks[0]? = some first ∧ w.desks[1]? = some second ∧
      w.handle? ⟨0, 0⟩ = some { scope := 3, id := ⟨0⟩ } ∧
      w.handle? ⟨1, 0⟩ = some { scope := 4, id := ⟨0⟩ } ∧
      second.draft.build = .error (.foreignHandle ⟨0⟩ "second") ∧
      ∃ r, first.draft.build = .ok r ∧ r.name = "first" ∧ r.graph.Tagged ∧
        r.graph.edges = [{ tail := ⟨1⟩, head := ⟨0⟩, action := some .create }] ∧
        r.graph.nodes.Perm
          [{ id := ⟨0⟩, kind := "Queue", domain := .source, action := some .create },
           { id := ⟨1⟩, kind := "Axiom", domain := .correspondence, action := some .create,
             isDefault := true }] := by
  intro calls
  obtain ⟨w, hrun⟩ : ∃ w, Workshop.run { next := 3 } calls = some w := ⟨_, rfl⟩
  have hw := hrun
  cases hw
  obtain ⟨name, hname, -, -, hbuilt⟩ := interleaved_drafts_independent (i := 0) hrun rfl
  obtain ⟨name', hname', -, herror, -⟩ := interleaved_drafts_independent (i := 1) hrun rfl
  cases hname
  cases hname'
  obtain ⟨r, hr, hrname, htagged, hedges, hnodes⟩ := hbuilt (by decide +kernel)
  refine ⟨_, _, _, hrun, rfl, rfl, rfl, rfl, ?_, r, hr, hrname, htagged, hedges, hnodes (by decide)⟩
  exact (herror _).mpr ⟨_, _, rfl, rfl, rfl⟩

end Rule

end TripleGrammar
