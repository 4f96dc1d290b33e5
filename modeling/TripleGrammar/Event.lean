import TripleGrammar.Node

/-!
# Events

A derivation leaves a record of what it did. Each event has a level of detail, a message and fields,
all of which are texts.
-/

namespace TripleGrammar

inductive Event where
  /-- A rule fired in the given pass and added nodes and edges. -/
  | ruleFired (rule : String) (pass nodes edges : Nat)
  /-- An embedding was passed over, since firing there would repeat what is linked already. -/
  | matchSkipped (rule : Option String) (image : List NodeId)
  /-- A host was pruned as seen from the domain. -/
  | hostPruned (domain : Domain) (covered seeds kept : Nat)
  /-- No rule applied any more. -/
  | settled (policy : String) (reads writes : Domain)
      (passes firings hostNodes outputNodes outputEdges : Nat)
deriving DecidableEq

namespace Event

/-- How much detail one has to ask for to see the event. -/
def level : Event → String
  | ruleFired .. => "DEBUG"
  | matchSkipped .. => "TRACE"
  | hostPruned .. => "TRACE"
  | settled .. => "INFO"

def message : Event → String
  | ruleFired .. => "Rule fired"
  | matchSkipped .. => "Skipping match that would duplicate a correspondence"
  | hostPruned .. => "Pruned host graph"
  | settled .. => "Translation reached fixed point"

/-- A set of nodes as it is written in a record. -/
def imageText (image : List NodeId) : String :=
  "\x7b" ++ ", ".intercalate (image.map fun id => "NodeId(" ++ id.text ++ ")") ++ "\x7d"

def fields : Event → List (String × String)
  | ruleFired rule pass nodes edges =>
    [("rule", rule), ("pass", Nat.repr pass), ("nodes", Nat.repr nodes), ("edges", Nat.repr edges)]
  | matchSkipped rule image => [("rule", rule.getD "<unnamed>"), ("image", imageText image)]
  | hostPruned domain covered seeds kept =>
    [("domain", domain.text), ("covered", Nat.repr covered), ("seeds", Nat.repr seeds),
     ("kept", Nat.repr kept)]
  | settled policy reads writes passes firings hostNodes outputNodes outputEdges =>
    [("policy", policy), ("from", reads.text), ("to", writes.text), ("passes", Nat.repr passes),
     ("firings", Nat.repr firings), ("host_nodes", Nat.repr hostNodes),
     ("output_nodes", Nat.repr outputNodes), ("output_edges", Nat.repr outputEdges)]

end Event

end TripleGrammar
