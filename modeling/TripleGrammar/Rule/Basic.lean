import TripleGrammar.Graph.Part

/-!
# Rules

A rule is a graph in which every node and every edge has an action: it is preserved, so it has to be
there before the rule fires, or it is created when the rule fires.
-/

namespace TripleGrammar

namespace Graph

def Tagged (g : Graph) : Prop :=
  (∀ n ∈ g.nodes, n.action.isSome) ∧ ∀ e ∈ g.edges, e.action.isSome

instance (g : Graph) : Decidable g.Tagged := inferInstanceAs (Decidable (_ ∧ _))

end Graph

/-- A named graph in which every element has an action. -/
structure Rule where
  name : String
  graph : Graph
  tagged : graph.Tagged

/-- Why something is no rule. -/
inductive RuleError where
  /-- A handle was issued by the draft of another rule. -/
  | foreignHandle (id : NodeId) (rule : String)
  /-- An element has no action. -/
  | missingAction (rule : String)
  | graph (error : GraphError)
deriving DecidableEq

def RuleError.message : RuleError → String
  | foreignHandle id rule => "Handle " ++ id.text ++ " does not belong to rule '" ++ rule ++ "'"
  | missingAction rule => "Element of rule '" ++ rule ++ "' has no action"
  | graph error => "Graph error: " ++ error.message

namespace Rule

/-- The rule with the given graph, which takes the name of the rule if it has none of its own. -/
def ofGraph (name : String) (g : Graph) : Except RuleError Rule :=
  if h : g.Tagged then .ok { name, graph := { g with name := g.name <|> some name }, tagged := h }
  else .error (.missingAction name)

def hasCreation (r : Rule) : Bool := r.graph.hasCreation

end Rule

end TripleGrammar
