import TripleGrammar.Graph.Assembly
import TripleGrammar.Json.Record
import TripleGrammar.Match
import TripleGrammar.Policy

/-!
# Reading values from text

The inverse of the canonical texts. Fields that a canonical text leaves out may be missing, and may
be `null` where that means absence. A graph is assembled from the nodes and edges that are read.
-/

namespace TripleGrammar

/-- Values that can be read from a JSON value. -/
class Readable (α : Type) where
  ofJson? : Json → Option α

export Readable (ofJson?)

/-- The value of a text that holds one value and nothing else but blanks. -/
def readText? {α : Type} [Readable α] (s : String) : Option α := (Json.parse? s).bind ofJson?

instance : Readable NodeId where
  ofJson? v := v.word?.map NodeId.mk

instance : Readable Domain where
  ofJson? := Json.oneOf? ([.source, .target, .correspondence].map fun d => (Domain.text d, d))

instance : Readable Action where
  ofJson? := Json.oneOf? ([.preserve, .create].map fun a => (Action.text a, a))

instance : Readable Node where
  ofJson? v := do
    let fields ← v.fields? ["id", "type", "domain", "action", "is_default"]
    let id ← Json.required? fields "id" ofJson?
    let kind ← Json.required? fields "type" Json.text?
    let domain ← Json.required? fields "domain" ofJson?
    let action ← Json.optional? fields "action" none (Json.nullable? ofJson?)
    let isDefault ← Json.optional? fields "is_default" false Json.bool?
    return { id, kind, domain, action, isDefault }

instance : Readable Edge where
  ofJson? v := do
    let fields ← v.fields? ["from", "to", "type", "action"]
    let tail ← Json.required? fields "from" ofJson?
    let head ← Json.required? fields "to" ofJson?
    let kind ← Json.optional? fields "type" none (Json.nullable? Json.text?)
    let action ← Json.optional? fields "action" none (Json.nullable? ofJson?)
    return { tail, head, kind, action }

instance : Readable IdSupply where
  ofJson? v := do
    let fields ← v.fields? ["next"]
    let next ← Json.required? fields "next" ofJson?
    return { next }

instance : Readable BitMatrix where
  ofJson? v := do
    let fields ← v.fields? ["rows", "cols", "cells"]
    let rows ← Json.required? fields "rows" Json.word?
    let cols ← Json.required? fields "cols" Json.word?
    let cells ← Json.required? fields "cells" (Json.list? Json.bool?)
    return { rows := rows.toNat, cols := cols.toNat, cells := cells.toArray }

/-- One binding of a match. The key is a natural number as it is written, between quotes. -/
def readBinding? (m : Lexeme × Json) : Option (NodeId × NodeId) := do
  return (← ofJson? (Json.number m.1), ← ofJson? m.2)

def readBindings? : Json → Option (List (NodeId × NodeId))
  | .object members => members.mapM readBinding?
  | _ => none

instance : Readable Match where
  ofJson? v := do
    let fields ← v.fields? ["pairs"]
    let pairs ← Json.required? fields "pairs" readBindings?
    return SortedMap.ofList pairs

instance : Readable Policy where
  ofJson? v := do
    let fields ← v.fields? ["version", "prune"]
    let version ← Json.required? fields "version" Json.text?
    let prune ← Json.optional? fields "prune" true Json.bool?
    return { version, prune }

instance : Readable Graph.Draft where
  ofJson? v := do
    let fields ← v.fields? ["name", "nodes", "edges"]
    let name ← Json.optional? fields "name" none (Json.nullable? Json.text?)
    let records ← Json.required? fields "nodes" (Json.list? ofJson?)
    let edges ← Json.required? fields "edges" (Json.list? ofJson?)
    return { name, records, edges }

/-- Why a text is not that of a graph. -/
inductive GraphTextError where
  /-- The text has not the form of a graph. -/
  | malformed
  /-- The elements do not make a graph. -/
  | graph (error : GraphError)
deriving DecidableEq

/-- The graph of a text that holds one graph and nothing else but blanks. Whether the elements make
a graph is found out before the characters after it are looked at. -/
def readGraph (s : String) : Except GraphTextError Graph :=
  match Json.read s.toList with
  | none => .error .malformed
  | some (v, rest) =>
    -- the error of the elements wins over trailing characters
    match (ofJson? v : Option Graph.Draft) with
    | none => .error .malformed
    | some d =>
      match d.build with
      | .error e => .error (.graph e)
      | .ok g => if Json.atEnd rest then .ok g else .error .malformed

end TripleGrammar
