import TripleGrammar.Graph.Assembly
import TripleGrammar.Rule.Basic

/-!
# Drafting rules

A draft collects the nodes and edges of a rule. It gives out a handle for each node, and edges are
drawn between handles. A handle belongs to the draft that issued it. Node ids do not tell, since
every draft counts them from zero, so each draft has a scope of its own, which its handles carry.
-/

namespace TripleGrammar

namespace Rule

/-- Stands for a node of the draft with the given scope. -/
structure Handle where
  scope : Nat
  id : NodeId
deriving DecidableEq

structure DraftEdge where
  tail : Handle
  head : Handle
  kind : Option String
  action : Action

/-- The beginnings of a rule. -/
structure Draft where
  name : String
  scope : Nat
  ids : IdSupply := {}
  nodes : List Node := []
  edges : List DraftEdge := []

/-- Gives out the scopes of drafts, each of them once. -/
structure Scopes where
  next : Nat := 0

namespace Draft

/-- A draft without nodes, in a scope that no earlier draft has. -/
def start (name : String) (scopes : Scopes) : Draft × Scopes :=
  ({ name, scope := scopes.next }, { next := scopes.next + 1 })

def node (d : Draft) (kind : String) (domain : Domain) (action : Action)
    (isDefault : Bool := false) : Handle × Draft :=
  let (n, ids) := d.ids.ruleNode kind domain action isDefault
  ({ scope := d.scope, id := n.id }, { d with ids, nodes := d.nodes ++ [n] })

def defaultCorrespondence (d : Draft) (kind : String) (action : Action) : Handle × Draft :=
  d.node kind .correspondence action true

def edge (d : Draft) (tail head : Handle) (kind : Option String) (action : Action) : Draft :=
  { d with edges := d.edges ++ [{ tail, head, kind, action }] }

/-- The node that one of the draft's own handles stands for. -/
def resolve (d : Draft) (h : Handle) : Except RuleError NodeId :=
  if h.scope = d.scope then .ok h.id else .error (.foreignHandle h.id d.name)

def resolveEdge (d : Draft) (e : DraftEdge) : Except RuleError Edge := do
  let tail ← d.resolve e.tail
  let head ← d.resolve e.head
  return { tail, head, kind := e.kind, action := some e.action }

def build (d : Draft) : Except RuleError Rule := do
  let edges ← d.edges.mapM d.resolveEdge
  match Graph.ofParts d.nodes edges with
  | .ok g => ofGraph d.name g
  | .error e => .error (.graph e)

end Draft

/-- An axiom of a grammar: the rule that creates a source node, a target node and a default
correspondence between them. -/
def pairing (name sourceKind targetKind linkKind : String) : Except RuleError Rule :=
  let (d, _) := Draft.start name {}
  let (source, d) := d.node sourceKind .source .create
  let (target, d) := d.node targetKind .target .create
  let (link, d) := d.defaultCorrespondence linkKind .create
  ((d.edge link source none .create).edge link target none .create).build

end Rule

end TripleGrammar
