import TripleGrammar.Canonical

/-!
# Signatures of graphs

The signature of a graph tells how often each label occurs on a node, and how often each pair of
labels is joined by an edge of each type. It does not depend on ids, names or order, so isomorphic
graphs have the same signature. Graphs with the same signature need not be isomorphic.
-/

namespace TripleGrammar

@[ext]
structure NodeLabel where
  domain : Domain
  kind : String
  isDefault : Bool
deriving DecidableEq

/-- What a signature tells of an edge. -/
@[ext]
structure EdgeLabel where
  tail : NodeLabel
  head : NodeLabel
  kind : Option String
deriving DecidableEq

/-- Labels are ordered by domain, then by type, and default correspondences come last. -/
instance : Ord NodeLabel where
  compare := compareLex (compareOn (·.domain)) (compareLex (compareOn (·.kind))
    (compareOn (·.isDefault)))

/-- Labels are ordered by tail, then by head, then by type, and edges without a type come first. -/
instance : Ord EdgeLabel where
  compare := compareLex (compareOn (·.tail)) (compareLex (compareOn (·.head))
    (compareOn (·.kind)))

@[ext]
structure Signature where
  nodes : List NodeLabel
  edges : List EdgeLabel
deriving DecidableEq

instance : Canonical NodeLabel where
  toJson l := .ofMembers
    [("domain", toJson l.domain), ("node_type", .ofText l.kind), ("is_default", .bool l.isDefault)]

instance : Canonical EdgeLabel where
  toJson l := .array [toJson l.tail, toJson l.head, (l.kind.map Json.ofText).getD .null]

instance : Canonical Signature where
  toJson s := .ofMembers
    [("nodes", .array (s.nodes.map toJson)), ("edges", .array (s.edges.map toJson))]

def Node.signatureLabel (n : Node) : NodeLabel := ⟨n.domain, n.kind, n.isDefault⟩

namespace Graph

def edgeLabel? (g : Graph) (e : Edge) : Option EdgeLabel := do
  let tail ← g.find? e.tail
  let head ← g.find? e.head
  return ⟨tail.signatureLabel, head.signatureLabel, e.kind⟩

def signature (g : Graph) : Signature where
  nodes := (g.nodes.map (·.signatureLabel)).mergeSort fun a b => (compare a b).isLE
  edges := (g.edges.filterMap g.edgeLabel?).mergeSort fun a b => (compare a b).isLE

def structureHash (g : Graph) : String := canonicalHash g.signature

end Graph

end TripleGrammar
