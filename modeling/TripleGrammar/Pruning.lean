import TripleGrammar.Event
import TripleGrammar.Graph.Assembly
import TripleGrammar.Graph.Part
import TripleGrammar.SortedMap

/-!
# Pruning

Pruning keeps the part of a host that belongs to a confirmed correspondence, as seen from a domain.
A correspondence without the default flag covers its successors in the domain. A default
correspondence pairs its one source node with its one target node. A node of the domain that has
such a partner is a seed unless it or the partner is covered. What is covered is kept, and so is
what can be reached from a seed along edges, all in their direction or all against it, without
passing through a covered node.
-/

namespace TripleGrammar

/-- Why a derivation or a pruning fails. -/
inductive DerivationError where
  /-- A default correspondence does not pair one source node with one target node. -/
  | defaultArity (node : NodeId) (sources targets : Nat)
  | graph (error : GraphError)
deriving DecidableEq

def DerivationError.message : DerivationError → String
  | defaultArity node sources targets =>
    "Default correspondence " ++ node.text ++ " links " ++ Nat.repr sources ++ " source and " ++
      Nat.repr targets ++ " target nodes"
  | graph error => "Graph error: " ++ error.message

structure Pruned where
  graph : Graph
  covered : Nat
  seeds : Nat
  kept : Nat

namespace Graph

/-- The source node and the target node that a default correspondence pairs. -/
def pairOf (g : Graph) (link : Node) : Except DerivationError (NodeId × NodeId) :=
  let sources := (g.successorsOf link.id).filter (·.domain == .source)
  let targets := (g.successorsOf link.id).filter (·.domain == .target)
  match sources, targets with
  | [s], [t] => .ok (s.id, t.id)
  | _, _ => .error (.defaultArity link.id sources.length targets.length)

/-- The partner of each node that a default correspondence pairs with another. Of several partners
the one of the last correspondence counts. -/
def partners (g : Graph) : Except DerivationError (SortedMap NodeId NodeId) := do
  let pairs ← ((g.nodesIn .correspondence).filter (·.isDefault)).mapM g.pairOf
  return pairs.foldl (fun m (s, t) => (m.insert s t).insert t s) ∅

/-- The nodes of a domain to which an edge runs from a correspondence without the default flag. -/
def coveredIds (g : Graph) (d : Domain) : List NodeId :=
  let links := (g.nodesIn .correspondence).filter fun c => !c.isDefault
  let heads := links.flatMap fun c => (g.successorsOf c.id).map (·.id)
  ((g.nodesIn d).map (·.id)).filter heads.contains

/-- The nodes of a domain that have a partner and, like their partner, are not covered. -/
def seedIds (g : Graph) (d : Domain) (partners : SortedMap NodeId NodeId)
    (covered : List NodeId) : List NodeId :=
  ((g.nodesIn d).map (·.id)).filter fun id =>
    !covered.contains id &&
    match partners.get? id with
    | some partner => !covered.contains partner
    | none => false

/-- Adds to `seen` what can be reached from `frontier` along at most `n` edges without entering
`stop` or what was seen before. -/
def spread (g : Graph) (stop : List NodeId) : Nat → List NodeId → List NodeId → List NodeId
  | 0, _, seen => seen
  | n + 1, frontier, seen =>
    let heads := frontier.flatMap fun id => (g.successorsOf id).map (·.id)
    let fresh := heads.eraseDups.filter fun id => !stop.contains id && !seen.contains id
    if fresh.isEmpty then seen else spread g stop n fresh (seen ++ fresh)

/-- What can be reached from the seeds along edges without entering `stop`. A path that visits no
node twice has fewer edges than there are nodes. -/
def reachable (g : Graph) (stop seeds : List NodeId) : List NodeId :=
  g.spread stop g.nodes.length seeds seeds

def prune (g : Graph) (d : Domain) : Except DerivationError Pruned := do
  let partners ← g.partners
  let covered := g.coveredIds d
  let seeds := g.seedIds d partners covered
  -- a path may run along edges or against them, but not turn round
  let ahead := g.reachable covered seeds
  let behind := g.reverse.reachable covered seeds
  let keep (id : NodeId) : Bool := covered.contains id || ahead.contains id || behind.contains id
  let nodes := g.nodes.filter fun n => keep n.id
  let edges := g.edges.filter fun e => keep e.tail && keep e.head
  match ofParts nodes edges with
  | .ok h =>
    return { graph := { h with name := g.name }, covered := covered.length, seeds := seeds.length,
             kept := nodes.length }
  | .error e => throw (.graph e)

end Graph

def Pruned.event (p : Pruned) (d : Domain) : Event := .hostPruned d p.covered p.seeds p.kept

end TripleGrammar
