import TripleGrammar.Graph.Basic

/-!
# Assembling graphs

A graph can be assembled from records of its nodes and a list of edges. The ends of the edges come
first, in the order in which the edges name them, tail before head; the other nodes follow in the
order of their records. Of several records with one id the first counts.

A `Graph.Draft` collects records and edges one by one.
-/

namespace TripleGrammar

namespace Graph

def endpoints (edges : List Edge) : List NodeId := edges.flatMap fun e => [e.tail, e.head]

/-- Enters the node with the given id, unless it is there already, by its first record. -/
def enterRecorded (records : List Node) (id : NodeId) : Edit Unit := do
  unless (← get).contains id do
    match records.find? (·.id == id) with
    | some n => addNode n
    | none => throw (.unknownNode id)

def assemble (records : List Node) (edges : List Edge) : Edit Unit := do
  (endpoints edges).forM (enterRecorded records)
  (records.map (·.id)).forM (enterRecorded records)
  edges.forM addEdge

/-- The graph with the given edges and the nodes of which there are records. -/
def ofParts (records : List Node) (edges : List Edge) : Except GraphError Graph :=
  match (assemble records edges).run ∅ with
  | .ok _ g => .ok g
  | .error e _ => .error e

structure Draft where
  name : Option String := none
  records : List Node := []
  edges : List Edge := []

namespace Draft

def named (d : Draft) (name : String) : Draft := { d with name := some name }

def node (d : Draft) (n : Node) : Draft := { d with records := d.records ++ [n] }

/-- Adds an edge together with its ends. -/
def edge (d : Draft) (tail head : Node) (kind : Option String) : Draft :=
  { d with
    records := d.records ++ [tail, head]
    edges := d.edges ++ [{ tail := tail.id, head := head.id, kind }] }

def build (d : Draft) : Except GraphError Graph := do
  return { (← ofParts d.records d.edges) with name := d.name }

end Draft

end Graph

end TripleGrammar
