import TripleGrammar.Json.Reader
import TripleGrammar.SortedMap

/-!
# Reading data from JSON values

The data types are read from values by name: a record is an object with certain keys, or an array of
the fields in a fixed order. Keys that no field has are left aside, but a field must not occur
twice.
-/

namespace TripleGrammar

namespace Json

def bool? : Json → Option Bool
  | bool b => some b
  | _ => none

def text? : Json → Option String
  | string lexeme => Lexeme.text? lexeme
  | _ => none

def word? : Json → Option UInt64
  | number lexeme => do
    let n ← Lexeme.natural? lexeme
    if n < UInt64.size then return UInt64.ofNat n else none
  | _ => none

def list? {α : Type} (item : Json → Option α) : Json → Option (List α)
  | array items => items.mapM item
  | _ => none

/-- Nothing if the value is `null`, and otherwise what `item` reads. -/
def nullable? {α : Type} (item : Json → Option α) : Json → Option (Option α)
  | null => some none
  | v => (item v).map some

def members? : Json → Option (List (String × Json))
  | object members => members.mapM fun m => (Lexeme.text? m.1).map fun key => (key, m.2)
  | _ => none

/-- The fields that a record of the given fields has: the members of an object that are among them,
each at most once, or the items of an array in the order of the fields, of which the last ones may
be missing. -/
def fields? (names : List String) : Json → Option (List (String × Json))
  -- in an array fields are told by their places, so none can occur twice
  | array items => if items.length ≤ names.length then some (names.zip items) else none
  | v => do
    let known := (← members? v).filter fun m => names.contains m.1
    if (known.map Prod.fst).Nodup then return known else none

def required? {α : Type} (fields : List (String × Json)) (name : String)
    (item : Json → Option α) : Option α :=
  (fields.lookup name).bind item

/-- A field that may be missing, and stands for `missing` then. -/
def optional? {α : Type} (fields : List (String × Json)) (name : String) (missing : α)
    (item : Json → Option α) : Option α :=
  match fields.lookup name with
  | none => some missing
  | some v => item v

/-- One of several values by its text, written as a string or as the key of an object whose only
member is `null`. -/
def oneOf? {α : Type} (texts : List (String × α)) : Json → Option α
  | string lexeme => do texts.lookup (← Lexeme.text? lexeme)
  | object [(key, null)] => do texts.lookup (← Lexeme.text? key)
  | _ => none

mutual

/-- The value in its canonical form: strings are written with as few escapes as possible, the
members of objects are sorted by their keys, and of those with one key only the last is kept. -/
def canonical? : Json → Option Json
  | null => some null
  | bool b => some (bool b)
  | number lexeme => some (number lexeme)
  | string lexeme => (Lexeme.text? lexeme).map ofText
  | array items => (canonicalItems? items).map array
  | object members => do
    return ofMembers (SortedMap.ofList (← canonicalMembers? members)).toList

def canonicalItems? : List Json → Option (List Json)
  | [] => some []
  | v :: vs => do return (← canonical? v) :: (← canonicalItems? vs)

def canonicalMembers? : List (Lexeme × Json) → Option (List (String × Json))
  | [] => some []
  | (k, v) :: ms => do return (← Lexeme.text? k, ← canonical? v) :: (← canonicalMembers? ms)

end

end Json

end TripleGrammar
