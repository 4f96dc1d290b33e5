import TripleGrammar.Proofs.ConnectedPrunings
import TripleGrammar.Proofs.ReachableGraphs

/-!
# Rules for queues and functions

Queues and functions each have a resource of their own in the other domain, which an axiom gives
them. Two rules read an edge between a queue and a function together with these resources:
`triggers` adds to the resources what the edge stands for, and `link` copies the edge, in either
direction.
-/

namespace TripleGrammar

namespace Rule.Draft

/-! ### Drafts -/

/-- The handles of a queue and a function, of their resources, and of the default correspondences
between the ones and the others. -/
structure Ends where
  queue : Handle
  function : Handle
  cfnQueue : Handle
  cfnFunction : Handle
  queueAxiom : Handle
  functionAxiom : Handle

def ends (name : String) : Ends × Draft :=
  let (d, _) := start name {}
  let (queue, d) := d.node "Queue" .source .preserve
  let (function, d) := d.node "Function" .source .preserve
  let (cfnQueue, d) := d.node "CfnQueue" .target .preserve
  let (cfnFunction, d) := d.node "CfnFunction" .target .preserve
  let (queueAxiom, d) := d.defaultCorrespondence "QueueAxiom" .preserve
  let (functionAxiom, d) := d.defaultCorrespondence "FunctionAxiom" .preserve
  ({ queue, function, cfnQueue, cfnFunction, queueAxiom, functionAxiom }, d)

/-- Draws the edges of the default correspondences. -/
def pair (d : Draft) (h : Ends) : Draft :=
  let d := d.edge h.queueAxiom h.queue none .preserve
  let d := d.edge h.queueAxiom h.cfnQueue none .preserve
  let d := d.edge h.functionAxiom h.function none .preserve
  d.edge h.functionAxiom h.cfnFunction none .preserve

def triggers : Draft :=
  let (h, d) := ends "triggers"
  let (mapping, d) := d.node "CfnEventSourceMapping" .target .create
  let (role, d) := d.node "CfnRole" .target .create
  let (link, d) := d.node "Triggers" .correspondence .create
  let d := d.edge h.queue h.function (some "Triggers") .preserve
  let d := d.pair h
  let d := d.edge mapping h.cfnQueue none .create
  let d := d.edge mapping h.cfnFunction none .create
  let d := d.edge h.cfnFunction role none .create
  [h.queue, h.function, mapping, role, h.cfnQueue, h.cfnFunction].foldl
    (fun d n => d.edge link n none .create) d

def link : Draft :=
  let (h, d) := ends "link"
  let (link, d) := d.node "TriggersLink" .correspondence .create
  let d := d.pair h
  let d := d.edge h.queue h.function (some "Triggers") .create
  let d := d.edge h.cfnQueue h.cfnFunction (some "Triggers") .create
  [h.queue, h.function, h.cfnQueue, h.cfnFunction].foldl
    (fun d n => d.edge link n none .create) d

/-! ### What they build -/

variable {draft : Draft} {r : Rule} {d : Domain}

/-- A rule has what the build of its draft is checked for. -/
@[elab_as_elim]
lemma of_build {motive : Rule → Prop} [DecidablePred motive] (h : draft.build = .ok r)
    (hcheck : draft.build.toOption.all (fun r => decide (motive r)) = true) : motive r := by
  rw [h] at hcheck
  exact of_decide_eq_true hcheck

lemma exists_build (hcheck : draft.build.toOption.isSome = true) : ∃ r, draft.build = .ok r := by
  cases h : draft.build with
  | ok r => exact ⟨r, rfl⟩
  | error e =>
    rw [h] at hcheck
    cases hcheck

lemma wellFormed_build (h : draft.build = .ok r) : r.graph.WellFormed :=
  (Graph.Reachable.draft h).wellFormed

end Rule.Draft

namespace Pairing

def queue : Pairing :=
  { name := "queue", sourceKind := "Queue", targetKind := "CfnQueue", linkKind := "QueueAxiom" }

def function : Pairing :=
  { name := "function", sourceKind := "Function", targetKind := "CfnFunction",
    linkKind := "FunctionAxiom" }

lemma queue_ne_function (x : Domain) : queue.kindIn x ≠ function.kindIn x := by
  cases x <;> decide

lemma of_queue (d : Domain) : of queue function d (queue.kindIn d) = queue :=
  of_kindIn (queue_ne_function d) List.mem_cons_self

lemma of_function (d : Domain) : of queue function d (function.kindIn d) = function :=
  of_kindIn (queue_ne_function d) (List.mem_cons_of_mem _ List.mem_cons_self)

section

variable {n : Node} (hk : n.kind = "Queue" ∨ n.kind = "Function")
include hk

lemma linkOf_source (link : NodeId → NodeId) : linkOf queue function .source link n =
    { id := link n.id, kind := n.kind ++ "Axiom", domain := .correspondence,
      isDefault := true } := by
  have hkind : (of queue function .source n.kind).linkKind = n.kind ++ "Axiom" := by
    rcases hk with hk | hk <;> rw [hk] <;> decide
  unfold linkOf
  rw [hkind]

lemma twinOf_source (twin : NodeId → NodeId) : twinOf queue function .source twin n =
    { id := twin n.id, kind := "Cfn" ++ n.kind, domain := .target } := by
  have hkind : (of queue function .source n.kind).kindIn .target = "Cfn" ++ n.kind := by
    rcases hk with hk | hk <;> rw [hk] <;> decide
  change ({ id := _, kind := Pairing.kindIn _ .target, domain := .target } : Node) = _
  rw [hkind]

end

lemma kindIn_ne_triggers (x : Domain) :
    queue.kindIn x ≠ "Triggers" ∧ function.kindIn x ≠ "Triggers" := by
  cases x <;> decide

lemma name_of_ne (k : String) (d : Domain) : (of queue function d k).name ≠ "triggers" := by
  unfold of
  split <;> decide

end Pairing

namespace Rule

variable {r : Rule} {d : Domain}

lemma connects_triggers (h : Draft.triggers.build = .ok r) :
    r.Connects .queue .function .source where
  layered := ⟨Draft.of_build h (by decide +kernel), Draft.wellFormed_build h⟩
  nodes := Draft.of_build h (by decide +kernel)
  edges := Draft.of_build h (by decide +kernel)

lemma covers_triggers (h : Draft.triggers.build = .ok r) : r.Covers .source :=
  Draft.of_build h (by decide +kernel)

lemma name_triggers (h : Draft.triggers.build = .ok r) : r.name = "triggers" :=
  Draft.of_build h (by decide +kernel)

lemma newTemplates_triggers (h : Draft.triggers.build = .ok r) : r.newTemplates .source =
    [{ id := ⟨6⟩, kind := "CfnEventSourceMapping", domain := .target, action := some .create },
     { id := ⟨7⟩, kind := "CfnRole", domain := .target, action := some .create },
     { id := ⟨8⟩, kind := "Triggers", domain := .correspondence, action := some .create }] :=
  Draft.of_build h (by decide +kernel)

lemma newLinks_triggers (h : Draft.triggers.build = .ok r) :
    (r.newTemplates .source).filter (·.kind == "Triggers") =
      [{ id := ⟨8⟩, kind := "Triggers", domain := .correspondence, action := some .create }] :=
  Draft.of_build h (by decide +kernel)

/-- The nodes that the rule adds to the resources. -/
lemma made_triggers (h : Draft.triggers.build = .ok r) (β : NodeId → NodeId) :
    ((r.newTemplates .source).filter (·.domain == Domain.source.other)).map (·.made β) =
      [{ id := β ⟨6⟩, kind := "CfnEventSourceMapping", domain := .target },
       { id := β ⟨7⟩, kind := "CfnRole", domain := .target }] := by
  rw [newTemplates_triggers h]
  rfl

/-- The edges that the rule draws among them and the resources. -/
lemma placed_triggers (h : Draft.triggers.build = .ok r) (β : NodeId → NodeId) :
    ((r.newEdges .source).filter (r.graph.edgeInside Domain.source.other)).map (·.placed β) =
      [{ tail := β ⟨6⟩, head := β Domain.source.other.tailId },
       { tail := β ⟨6⟩, head := β Domain.source.other.headId },
       { tail := β Domain.source.other.headId, head := β ⟨7⟩ }] := by
  have hedges : (r.newEdges .source).filter (r.graph.edgeInside .target) =
      [{ tail := ⟨6⟩, head := Domain.target.tailId, action := some .create },
       { tail := ⟨6⟩, head := Domain.target.headId, action := some .create },
       { tail := Domain.target.headId, head := ⟨7⟩, action := some .create }] :=
    Draft.of_build h (by decide +kernel)
  rw [show Domain.source.other = .target from rfl, hedges]
  rfl

lemma connects_link (h : Draft.link.build = .ok r) (hd : d ≠ .correspondence) :
    r.Connects .queue .function d := by
  have hwf := Draft.wellFormed_build h
  cases d with
  | source =>
    exact ⟨⟨Draft.of_build h (by decide +kernel), hwf⟩, Draft.of_build h (by decide +kernel),
      Draft.of_build h (by decide +kernel)⟩
  | target =>
    exact ⟨⟨Draft.of_build h (by decide +kernel), hwf⟩, Draft.of_build h (by decide +kernel),
      Draft.of_build h (by decide +kernel)⟩
  | correspondence => exact absurd rfl hd

lemma covers_link (h : Draft.link.build = .ok r) (hd : d ≠ .correspondence) : r.Covers d := by
  cases d with
  | source => exact Draft.of_build h (by decide +kernel)
  | target => exact Draft.of_build h (by decide +kernel)
  | correspondence => exact absurd rfl hd

lemma newTemplates_link (h : Draft.link.build = .ok r) (hd : d ≠ .correspondence) :
    r.newTemplates d = [{ id := ⟨6⟩, kind := "TriggersLink", domain := .correspondence,
                          action := some .create }] := by
  cases d with
  | source => exact Draft.of_build h (by decide +kernel)
  | target => exact Draft.of_build h (by decide +kernel)
  | correspondence => exact absurd rfl hd

/-- The edge that the rule draws opposite to the one that it reads. -/
lemma placed_link (h : Draft.link.build = .ok r) (hd : d ≠ .correspondence)
    (β : NodeId → NodeId) :
    ((r.newEdges d).filter (r.graph.edgeInside d.other)).map (·.placed β) =
      [{ tail := β d.other.tailId, head := β d.other.headId, kind := some "Triggers" }] := by
  have hedges : (r.newEdges d).filter (r.graph.edgeInside d.other) =
      [{ tail := d.other.tailId, head := d.other.headId, kind := some "Triggers",
         action := some .create }] := by
    cases d with
    | source => exact Draft.of_build h (by decide +kernel)
    | target => exact Draft.of_build h (by decide +kernel)
    | correspondence => exact absurd rfl hd
  rw [hedges]
  rfl

end Rule

end TripleGrammar
