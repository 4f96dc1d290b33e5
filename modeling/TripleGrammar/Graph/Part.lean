import TripleGrammar.Graph.Basic

/-!
# Parts of graphs

Graphs made from the elements of another: the same edges in the other direction, the part inside one
domain, and the two parts into which the graph of a rule falls, the context that has to be there
before the rule fires and what the rule creates.
-/

namespace TripleGrammar

namespace Graph

/-- Enters the node with the given id into `h`, unless it is there already, by the record that `g`
has of it. -/
def enterFrom (g h : Graph) (id : NodeId) : Graph :=
  match g.find? id with
  | some n => h.enterNew n
  | none => h

/-- Adds an edge of `g` to `h`, after its ends. -/
def joinFrom (g h : Graph) (e : Edge) : Graph :=
  (g.enterFrom (g.enterFrom h e.tail) e.head).join e

/-- The edges and their ends, in the order in which the edges name them, with the records that `g`
has of them. -/
def partOf (g : Graph) (edges : List Edge) (name : Option String) : Graph :=
  edges.foldl g.joinFrom { name }

def reverse (g : Graph) : Graph :=
  let bare := g.nodes.foldl enter { name := g.name }
  g.edges.foldl (fun h e => h.join e.reversed) bare

def project (g : Graph) (d : Domain) : Graph :=
  (g.nodesIn d).foldl enterNew (g.partOf (g.edges.filter (g.edgeInside d)) g.name)

/-- The edges that have to be there before the rule fires, read from `d`: the preserved ones, and
each further one inside `d` once. -/
def contextEdges (g : Graph) (d : Domain) : List Edge :=
  (g.edges.filter (g.edgeInside d)).foldl
    (fun es e => if es.contains e then es else es ++ [e])
    (g.edges.filter (·.hasAction .preserve))

/-- What has to be there before the rule fires, read from `d`: the context edges with their ends,
and then the remaining nodes that are in `d` or preserved. -/
def context (g : Graph) (d : Domain) : Graph :=
  (g.nodes.filter fun n => n.domain == d || n.hasAction .preserve).foldl enterNew
    (g.partOf (g.contextEdges d) (g.name.map (· ++ "_context")))

/-- The created edges with their ends. A created node without a created edge is not among them. -/
def creator (g : Graph) : Graph :=
  g.partOf (g.edges.filter (·.hasAction .create)) (g.name.map (· ++ "_creator"))

def creationNodes (g : Graph) : List Node := g.nodes.filter (·.hasAction .create)

/-- Whether the rule can add anything to a host. -/
def hasCreation (g : Graph) : Bool :=
  g.nodes.any (·.hasAction .create) || g.edges.any (·.hasAction .create)

end Graph

end TripleGrammar
