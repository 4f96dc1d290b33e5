/-!
# Nodes

A triple graph joins a source graph and a target graph by a third, whose nodes link the elements
that correspond. A node says to which of the three it belongs.

Nodes are told apart by their ids alone, which an `IdSupply` gives out in ascending order.
-/

namespace TripleGrammar

/-- What tells one node from another. -/
structure NodeId where
  raw : UInt64
deriving DecidableEq

namespace NodeId

instance : Ord NodeId := ⟨compareOn raw⟩

instance : Std.TransOrd NodeId := inferInstanceAs (Std.TransCmp (compareOn raw))

instance : Std.LawfulEqOrd NodeId where
  compare_self := Std.ReflCmp.compare_self
  eq_of_compare {a b} h := by
    have hraw : compare a.raw b.raw = .eq := h
    cases a; cases b
    exact congrArg NodeId.mk (Std.LawfulEqCmp.eq_of_compare hraw)

def text (a : NodeId) : String := Nat.repr a.raw.toNat

def sameMembers (l₁ l₂ : List NodeId) : Bool := l₁.all l₂.contains && l₂.all l₁.contains

end NodeId

/-- The three parts of a triple graph. -/
inductive Domain where
  /-- The model that is given. -/
  | source
  /-- The model that is derived. -/
  | target
  /-- The links between the two. -/
  | correspondence
deriving DecidableEq

namespace Domain

/-- The place of the domain among the three. -/
def rank : Domain → Nat
  | source => 0
  | target => 1
  | correspondence => 2

instance : Ord Domain := ⟨compareOn rank⟩

def text : Domain → String
  | source => "source"
  | target => "target"
  | correspondence => "correspondence"

def category : Domain → String
  | source => "Source"
  | target => "Target"
  | correspondence => "Correspondence"

end Domain

/-- What a rule does with one of its elements. -/
inductive Action where
  /-- The element has to be there before the rule fires. -/
  | preserve
  /-- The element is added when the rule fires. -/
  | create
deriving DecidableEq

def Action.text : Action → String
  | preserve => "preserve"
  | create => "create"

structure Node where
  id : NodeId
  /-- The type label, compared for equality only. -/
  kind : String
  domain : Domain
  /-- What a rule does with the node. Nodes of a host have none. -/
  action : Option Action := none
  /-- Marks a correspondence that pairs one source node with one target node. -/
  isDefault : Bool := false
deriving DecidableEq

namespace Node

def label (n : Node) : String := n.kind ++ "_" ++ n.id.text

def isCorrespondence (n : Node) : Bool := n.domain == .correspondence

def hasAction (n : Node) (a : Action) : Bool := n.action == some a

def sameLabel (n m : Node) : Bool := n.kind == m.kind && n.domain == m.domain

/-- The ids of those nodes that are in the domain. -/
def idsIn (d : Domain) (nodes : List Node) : List NodeId :=
  (nodes.filter (·.domain == d)).map (·.id)

end Node

/-- Gives out node ids in ascending order. -/
structure IdSupply where
  /-- The id that is given out next. -/
  next : NodeId := ⟨0⟩
deriving DecidableEq

namespace IdSupply

def advance (ids : IdSupply) : IdSupply := ⟨⟨ids.next.raw + 1⟩⟩

def node (ids : IdSupply) (kind : String) (domain : Domain) : Node × IdSupply :=
  ({ id := ids.next, kind, domain }, ids.advance)

def defaultCorrespondence (ids : IdSupply) (kind : String) : Node × IdSupply :=
  ({ id := ids.next, kind, domain := .correspondence, isDefault := true }, ids.advance)

def ruleNode (ids : IdSupply) (kind : String) (domain : Domain) (action : Action)
    (isDefault : Bool) : Node × IdSupply :=
  ({ id := ids.next, kind, domain, action := some action, isDefault }, ids.advance)

/-- A node with the labels of `template` and without an action. The default flag is kept on
correspondences only. -/
def instantiate (ids : IdSupply) (template : Node) : Node × IdSupply :=
  ({ id := ids.next, kind := template.kind, domain := template.domain,
     isDefault := template.isDefault && template.isCorrespondence }, ids.advance)

end IdSupply

end TripleGrammar
