import TripleGrammar.Embedding.Backtracking
import TripleGrammar.Graph.Basic

/-!
# Isomorphism of graphs

Two graphs are isomorphic if one becomes the other by renaming its nodes: types, domains and default
flags agree, and so do the edges with their types, each as often as it occurs. Names, actions and
the order of nodes and edges do not matter.
-/

namespace TripleGrammar

namespace Graph

def flagsAgree (host pattern : Graph) (i j : Nat) : Bool :=
  match pattern.nodes[i]?, host.nodes[j]? with
  | some p, some h => p.sameLabel h && p.isDefault == h.isDefault
  | _, _ => false

abbrev EdgeShape := Option Nat × Option Nat × Option String

def edgeShapes (g : Graph) : List EdgeShape :=
  g.edges.map fun e => (g.indexOf? e.tail, g.indexOf? e.head, e.kind)

/-- The position at which an assignment places the node at position `i`. -/
def placeOf (m : BitMatrix) (i : Nat) : Option Nat := (m.rowOnes i).getLast?

/-- The edges by the positions to which an assignment brings their ends. -/
def placedShapes (g : Graph) (m : BitMatrix) : List EdgeShape :=
  g.edgeShapes.map fun (i, j, k) => (i.bind (placeOf m), j.bind (placeOf m), k)

/-- Looks at one assignment of the nodes of `h`: it is taken if labels agree and it brings the edges
of `h` onto those of `g`. -/
def considerRenaming (g h : Graph) (m : BitMatrix) (_ : Bool) : ForInStep Bool :=
  if (m.ones.all fun (i, j) => g.flagsAgree h i j) && (h.placedShapes m).isPerm g.edgeShapes then
    .done true
  else .yield false

/-- Whether `h` becomes `g` by renaming its nodes. -/
def isIsomorphicTo (g h : Graph) (S : Strategy := .backtracking) : Bool :=
  -- with as many nodes on either side an embedding is a bijection
  g.nodes.length == h.nodes.length && g.edges.length == h.edges.length &&
  g.adjacency.count == h.adjacency.count &&
  (S.search g.adjacency h.adjacency (g.flagsAgree h) (g.considerRenaming h) false).value

end Graph

end TripleGrammar
