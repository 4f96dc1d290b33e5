import TripleGrammar.BitMatrix.Basic
import TripleGrammar.Edge
import TripleGrammar.SortedMap

/-!
# Graphs

A graph holds its nodes in the order in which they were entered, their positions by id, its edges in
the order in which they were added, and the adjacency relation as a matrix over the positions. The
same type serves for hosts, whose elements have no action, and for the graphs of rules.

Nodes and edges are only ever added, in place; a smaller graph is built anew from a part of the
elements. `Graph.WellFormed` says how the four parts hang together.
-/

namespace TripleGrammar

/-- A directed graph over nodes of the three domains. -/
structure Graph where
  name : Option String := none
  nodes : List Node := []
  /-- The position of each node. -/
  index : SortedMap NodeId Nat := ∅
  /-- Which positions are joined by an edge. -/
  adjacency : BitMatrix := .square 0
  edges : List Edge := []
deriving DecidableEq

/-- Why an element cannot be looked up in a graph or added to it. -/
inductive GraphError where
  | unknownNode (id : NodeId)
  | duplicateNode (id : NodeId)
  | defaultOutsideCorrespondence (id : NodeId)
deriving DecidableEq

def GraphError.message : GraphError → String
  | unknownNode id => "Node not registered in graph: " ++ id.text
  | duplicateNode id => "Node id already in use: " ++ id.text
  | defaultOutsideCorrespondence id => "Default flag on non-correspondence node: " ++ id.text

/-- A correspondence and the nodes of one domain that it links. -/
structure Link where
  node : Node
  ends : List NodeId

/-- Whether the link joins exactly the given nodes, in whatever order. -/
def Link.joins (l : Link) (ids : List NodeId) : Bool := NodeId.sameMembers l.ends ids

namespace Graph

instance : EmptyCollection Graph := ⟨{}⟩

def named (g : Graph) (name : String) : Graph := { g with name := some name }

def indexOf? (g : Graph) (id : NodeId) : Option Nat := g.index.get? id

def find? (g : Graph) (id : NodeId) : Option Node := (g.indexOf? id).bind (g.nodes[·]?)

def contains (g : Graph) (id : NodeId) : Bool := g.index.contains id

/-- The id of the node at a position. -/
def idAt? (g : Graph) (i : Nat) : Option NodeId := (g.nodes[i]?).map (·.id)

def node (g : Graph) (id : NodeId) : Except GraphError Node :=
  match g.find? id with
  | some n => .ok n
  | none => .error (.unknownNode id)

def nodesIn (g : Graph) (d : Domain) : List Node := g.nodes.filter (·.domain == d)

def domainOf? (g : Graph) (id : NodeId) : Option Domain := (g.find? id).map (·.domain)

def edgeInside (g : Graph) (d : Domain) (e : Edge) : Bool :=
  g.domainOf? e.tail == some d && g.domainOf? e.head == some d

/-- The graph with one more node at the end, which no edge touches. -/
def enter (g : Graph) (n : Node) : Graph :=
  { g with
    nodes := g.nodes ++ [n]
    index := g.index.insert n.id g.nodes.length
    adjacency := g.adjacency.grow }

def enterNew (g : Graph) (n : Node) : Graph := if g.contains n.id then g else g.enter n

/-- The graph with one more edge between two of its nodes. -/
def join (g : Graph) (e : Edge) : Graph :=
  match g.indexOf? e.tail, g.indexOf? e.head with
  | some i, some j => { g with adjacency := g.adjacency.set i j true, edges := g.edges ++ [e] }
  | _, _ => g

/-- A change of a graph in place. One that fails leaves behind what it has done so far. -/
abbrev Edit := EStateM GraphError Graph

/-- The graph as the change leaves it, whether or not it fails. -/
def Edit.after {α : Type} (x : Edit α) (g : Graph) : Graph :=
  match x.run g with
  | .ok _ g => g
  | .error _ g => g

/-- Adds a node. A node whose id the graph has already is left out. Only correspondences may carry
the default flag. -/
def addNode (n : Node) : Edit Unit := do
  if n.isDefault && !n.isCorrespondence then throw (.defaultOutsideCorrespondence n.id)
  modify (·.enterNew n)

def requireNode (id : NodeId) : Edit Unit := do
  unless (← get).contains id do throw (.unknownNode id)

def addEdge (e : Edge) : Edit Unit := do
  requireNode e.tail
  requireNode e.head
  modify (·.join e)

/-- The nodes to which an edge runs from the node with the given id, in order. -/
def successorsOf (g : Graph) (id : NodeId) : List Node :=
  match g.indexOf? id with
  | some i => (g.adjacency.rowOnes i).filterMap fun j => g.nodes[j]?
  | none => []

/-- The nodes to which an edge runs from a node of the graph, in order. -/
def successors (g : Graph) (id : NodeId) : Except GraphError (List Node) :=
  if g.contains id then .ok (g.successorsOf id) else .error (.unknownNode id)

/-- The positions of the nodes from which an edge of the edge list runs to the node with the given
id, each once, ascending. -/
def tailPositions (g : Graph) (id : NodeId) : List Nat :=
  SortedMap.distinct ((g.edges.filter (·.head == id)).filterMap fun e => g.indexOf? e.tail)

/-- The nodes from which an edge of the edge list runs to a node of the graph, in order. -/
def predecessors (g : Graph) (id : NodeId) : Except GraphError (List Node) :=
  if g.contains id then .ok ((g.tailPositions id).filterMap fun i => g.nodes[i]?)
  else .error (.unknownNode id)

/-- The correspondences, each with its successors in `d`. -/
def links (g : Graph) (d : Domain) : List Link :=
  (g.nodesIn .correspondence).map fun c =>
    { node := c, ends := Node.idsIn d (g.successorsOf c.id) }

/-- The correspondences that link exactly the given nodes of a domain. Nodes of the other domains do
not count on either side. -/
def linksTo (g : Graph) (nodes : List Node) (d : Domain) : List Node :=
  ((g.links d).filter (·.joins (Node.idsIn d nodes))).map (·.node)

/-- Nodes are told apart by their ids, the index has the position of each node and nothing else,
edges join nodes of the graph, the adjacency relation says where edges run, and only correspondences
carry the default flag. -/
structure WellFormed (g : Graph) : Prop where
  nodup : (g.nodes.map (·.id)).Nodup
  index_iff : ∀ id i, g.index.get? id = some i ↔ g.idAt? i = some id
  tail_mem : ∀ e ∈ g.edges, e.tail ∈ g.nodes.map (·.id)
  head_mem : ∀ e ∈ g.edges, e.head ∈ g.nodes.map (·.id)
  rows_eq : g.adjacency.rows = g.nodes.length
  cols_eq : g.adjacency.cols = g.nodes.length
  cells_eq : g.adjacency.WellFormed
  get_iff : ∀ i j, g.adjacency.get i j ↔
    ∃ e ∈ g.edges, g.idAt? i = some e.tail ∧ g.idAt? j = some e.head
  default_mem : ∀ n ∈ g.nodes, n.isDefault → n.domain = .correspondence

end Graph

end TripleGrammar
