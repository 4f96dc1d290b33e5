import TripleGrammar.Digest
import TripleGrammar.Graph.Basic
import TripleGrammar.Json.Lexeme
import TripleGrammar.Match
import TripleGrammar.Policy
import TripleGrammar.Rule.Basic

/-!
# Canonical texts

Every kind of value has one canonical JSON text, in which the fields of a record stand in a fixed
order and absent fields are left out. The digest of that text identifies the value.
-/

namespace TripleGrammar

/-- Values that have a canonical JSON form. -/
class Canonical (α : Type) where
  toJson : α → Json

export Canonical (toJson)

def canonicalText {α : Type} [Canonical α] (a : α) : String := (toJson a).compact

def canonicalDigest {α : Type} [Canonical α] (a : α) : UInt64 := Digest.ofText (canonicalText a)

/-- The digest of the canonical text in hexadecimal digits. -/
def canonicalHash {α : Type} [Canonical α] (a : α) : String := Digest.hex (canonicalDigest a)

/-- A field that is left out if it is absent. -/
def optionalField {α : Type} (key : String) (a : Option α) (form : α → Json) :
    List (String × Json) :=
  match a with
  | some a => [(key, form a)]
  | none => []

instance : Canonical Json where
  toJson v := v

instance : Canonical NodeId where
  toJson a := .ofNat a.raw.toNat

instance : Canonical Domain where
  toJson d := .ofText d.text

instance : Canonical Action where
  toJson a := .ofText a.text

instance : Canonical Node where
  toJson n := .ofMembers <|
    [("id", toJson n.id), ("type", .ofText n.kind), ("domain", toJson n.domain)] ++
    optionalField "action" n.action toJson ++
    (if n.isDefault then [("is_default", .bool true)] else [])

instance : Canonical Edge where
  toJson e := .ofMembers <|
    [("from", toJson e.tail), ("to", toJson e.head)] ++
    optionalField "type" e.kind .ofText ++
    optionalField "action" e.action toJson

instance : Canonical IdSupply where
  toJson ids := .ofMembers [("next", toJson ids.next)]

instance : Canonical BitMatrix where
  toJson m := .ofMembers
    [("rows", .ofNat m.rows), ("cols", .ofNat m.cols),
     ("cells", .array (m.cells.toList.map .bool))]

instance : Canonical Graph where
  toJson g := .ofMembers <|
    optionalField "name" g.name .ofText ++
    [("nodes", .array (g.nodes.map toJson)), ("edges", .array (g.edges.map toJson))]

instance : Canonical Rule where
  toJson r := .ofMembers [("name", .ofText r.name), ("graph", toJson r.graph)]

instance : Canonical Match where
  toJson m := .ofMembers
    [("pairs", .object (m.toList.map fun (r, h) => (Lexeme.ofNatural r.raw.toNat, toJson h)))]

instance : Canonical Policy where
  toJson p := .ofMembers [("version", .ofText p.version), ("prune", .bool p.prune)]

end TripleGrammar
