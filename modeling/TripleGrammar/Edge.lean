import TripleGrammar.Node

/-!
# Edges

An edge runs from its tail to its head. Two edges may join the same nodes, so edges are counted and
not told apart by their ends.
-/

namespace TripleGrammar

/-- A directed edge between two nodes. -/
structure Edge where
  tail : NodeId
  head : NodeId
  /-- The type label, if the edge has one. The empty label is a label. -/
  kind : Option String := none
  /-- What a rule does with the edge. Edges of a host have none. -/
  action : Option Action := none
deriving DecidableEq

namespace Edge

def reversed (e : Edge) : Edge := { e with tail := e.head, head := e.tail }

def hasAction (e : Edge) (a : Action) : Bool := e.action == some a

end Edge

end TripleGrammar
