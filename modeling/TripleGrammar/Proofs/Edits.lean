import TripleGrammar.Graph.Assembly
import TripleGrammar.Graph.Lemmas

/-!
# Changes of graphs in place

How single changes end, and what a change made up of several keeps whether it succeeds or fails on
the way. Adding nodes and edges, one by one or from records, keeps a graph well formed.
-/

namespace TripleGrammar.Graph

variable {α β : Type} {g : Graph} {P : Graph → Prop}

/-! ### Single changes -/

lemma run_addNode (n : Node) : (addNode n).run g =
    if (n.isDefault && !n.isCorrespondence) = true then
      .error (.defaultOutsideCorrespondence n.id) g
    else .ok () (g.enterNew n) := by
  unfold addNode
  split <;> simp [*]

lemma run_addNode_ok {n : Node} (hdefault : n.isDefault = true → n.domain = .correspondence) :
    (addNode n).run g = .ok () (g.enterNew n) := by
  have hflag : ¬(n.isDefault && !n.isCorrespondence) = true := by
    simpa [Node.isCorrespondence] using hdefault
  rw [run_addNode, if_neg hflag]

lemma run_requireNode (id : NodeId) : (requireNode id).run g =
    if g.contains id = true then .ok () g else .error (.unknownNode id) g := by
  unfold requireNode
  by_cases h : g.contains id = true <;> simp [h]

lemma run_addEdge (e : Edge) : (addEdge e).run g =
    if g.contains e.tail = true then
      if g.contains e.head = true then .ok () (g.join e) else .error (.unknownNode e.head) g
    else .error (.unknownNode e.tail) g := by
  unfold addEdge
  simp only [EStateM.run_bind, run_requireNode]
  by_cases ht : g.contains e.tail = true
  · by_cases hh : g.contains e.head = true
    · simp only [if_pos ht, if_pos hh, EStateM.run_modify]
    · simp only [if_pos ht, if_neg hh]
  · simp only [if_neg ht]

lemma run_ofExcept (x : Except GraphError α) : (ofExcept x : Edit α).run g =
    match x with
    | .ok a => .ok a g
    | .error err => .error err g := by
  cases x <;> rfl

lemma run_forM_cons {f : α → Edit Unit} {a : α} {l : List α} {g' : Graph}
    (h : (f a).run g = .ok () g') : ((a :: l).forM f).run g = (l.forM f).run g' := by
  change (f a >>= fun _ => l.forM f).run g = _
  rw [EStateM.run_bind, h]

lemma run_forM_cons_error {f : α → Edit Unit} {a : α} {l : List α} {g' : Graph} {err : GraphError}
    (h : (f a).run g = .error err g') : ((a :: l).forM f).run g = .error err g' := by
  change (f a >>= fun _ => l.forM f).run g = _
  rw [EStateM.run_bind, h]

/-! ### What a change keeps -/

/-- Whatever comes of the change, it leaves a graph with the property if it is made on one. -/
def Edit.Keeps (P : Graph → Prop) (x : Edit α) : Prop := ∀ g, P g → P (x.after g)

lemma keeps_pure (a : α) : (pure a : Edit α).Keeps P := fun _ hg => hg

lemma keeps_throw (err : GraphError) : (throw err : Edit α).Keeps P := fun _ hg => hg

lemma keeps_get : (get : Edit Graph).Keeps P := fun _ hg => hg

lemma keeps_ofExcept (x : Except GraphError α) : (ofExcept x : Edit α).Keeps P := by
  intro g hg
  unfold Edit.after
  rw [run_ofExcept]
  cases x <;> exact hg

lemma keeps_bind {x : Edit α} {f : α → Edit β} (hx : x.Keeps P) (hf : ∀ a, (f a).Keeps P) :
    (x >>= f).Keeps P := by
  intro g hg
  have hmid := hx g hg
  unfold Edit.after at hmid ⊢
  rw [EStateM.run_bind]
  cases hrun : x.run g with
  | ok a g₁ =>
    rw [hrun] at hmid
    exact hf a g₁ hmid
  | error err g₁ =>
    rw [hrun] at hmid
    exact hmid

lemma keeps_forM {f : α → Edit Unit} {l : List α} (hf : ∀ a ∈ l, (f a).Keeps P) :
    (forM l f).Keeps P := by
  induction l with
  | nil => exact keeps_pure _
  | cons a l ih =>
    rw [List.forM_cons]
    apply keeps_bind (hf a List.mem_cons_self)
    intro _
    exact ih fun b hb => hf b (List.mem_cons_of_mem _ hb)

lemma keeps_foldlM {f : β → α → Edit β} {l : List α} (hf : ∀ b, ∀ a ∈ l, (f b a).Keeps P) (b : β) :
    (l.foldlM f b).Keeps P := by
  induction l generalizing b with
  | nil => exact keeps_pure _
  | cons a l ih =>
    rw [List.foldlM_cons]
    apply keeps_bind (hf b a List.mem_cons_self)
    intro c
    exact ih (fun b a ha => hf b a (List.mem_cons_of_mem _ ha)) c

/-! ### Well-formed graphs -/

lemma addNode_keeps_wellFormed (n : Node) : (addNode n).Keeps WellFormed := by
  intro g hg
  unfold Edit.after
  rw [run_addNode]
  by_cases hflag : (n.isDefault && !n.isCorrespondence) = true
  · rw [if_pos hflag]
    exact hg
  · rw [if_neg hflag]
    apply hg.enterNew
    intro hdefault
    simpa [hdefault, Node.isCorrespondence] using hflag

lemma addEdge_keeps_wellFormed (e : Edge) : (addEdge e).Keeps WellFormed := by
  intro g hg
  unfold Edit.after
  rw [run_addEdge]
  by_cases ht : g.contains e.tail = true
  · by_cases hh : g.contains e.head = true
    · rw [if_pos ht, if_pos hh]
      exact hg.join
    · rw [if_pos ht, if_neg hh]
      exact hg
  · rw [if_neg ht]
    exact hg

lemma enterRecorded_keeps_wellFormed (records : List Node) (id : NodeId) :
    (enterRecorded records id).Keeps WellFormed := by
  unfold enterRecorded
  refine keeps_bind keeps_get fun h => ?_
  split
  · exact keeps_pure _
  · split
    · exact addNode_keeps_wellFormed _
    · exact keeps_throw _

lemma assemble_keeps_wellFormed (records : List Node) (edges : List Edge) :
    (assemble records edges).Keeps WellFormed := by
  unfold assemble
  apply keeps_bind (keeps_forM fun id _ => enterRecorded_keeps_wellFormed records id)
  intro _
  apply keeps_bind (keeps_forM fun id _ => enterRecorded_keeps_wellFormed records id)
  intro _
  exact keeps_forM fun e _ => addEdge_keeps_wellFormed e

theorem wellFormed_of_ofParts {records : List Node} {edges : List Edge}
    (h : ofParts records edges = .ok g) : g.WellFormed := by
  have hafter := assemble_keeps_wellFormed records edges ∅ (wellFormed_bare none)
  unfold ofParts at h
  unfold Edit.after at hafter
  cases hrun : (assemble records edges).run ∅ with
  | ok u g' =>
    rw [hrun] at h hafter
    obtain rfl := Except.ok.inj h
    exact hafter
  | error err g' =>
    rw [hrun] at h
    cases h

theorem wellFormed_of_build {draft : Draft} (h : draft.build = .ok g) : g.WellFormed := by
  unfold Draft.build at h
  cases hparts : ofParts draft.records draft.edges with
  | ok g' =>
    rw [hparts] at h
    obtain rfl := Except.ok.inj h
    exact (wellFormed_of_ofParts hparts).renamed draft.name
  | error err =>
    rw [hparts] at h
    cases h

end TripleGrammar.Graph
