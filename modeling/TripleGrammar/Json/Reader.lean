import TripleGrammar.Json.Lexeme

/-!
# Reading JSON

`Json.read` takes one value off the front of a text and gives the characters after it. Between the
parts of a value there may be blanks. Numbers and strings have to have the right form, but nothing
is asked of what they stand for: a number may be of any size, and a surrogate may stand alone.
-/

namespace TripleGrammar

namespace Json

def isBlank (c : Char) : Bool := c == ' ' || c == '\n' || c == '\r' || c == '\t'

def skipBlanks (cs : List Char) : List Char := cs.dropWhile isBlank

/-- The lexeme of a string and what follows its closing quote. -/
def readString : List Char → Option (Lexeme × List Char)
  | [] => none
  | '"' :: rest => some ([], rest)
  | '\\' :: 'u' :: a :: b :: c :: d :: rest => do
    let _ ← Lexeme.codeUnit? a b c d
    let (lexeme, rest) ← readString rest
    return ('\\' :: 'u' :: a :: b :: c :: d :: lexeme, rest)
  | '\\' :: e :: rest => do
    let _ ← Lexeme.shortEscape? e
    let (lexeme, rest) ← readString rest
    return ('\\' :: e :: lexeme, rest)
  | c :: rest =>
    if c == '\\' || decide (c.toNat < 0x20) then none
    else do
      let (lexeme, rest) ← readString rest
      return (c :: lexeme, rest)

def readNumber (cs : List Char) : Option (Lexeme × List Char) :=
  let lexeme := cs.takeWhile Lexeme.isNumberChar
  if Lexeme.isNumber lexeme then some (lexeme, cs.dropWhile Lexeme.isNumberChar) else none

def readKey (cs : List Char) : Option (Lexeme × List Char) :=
  match skipBlanks cs with
  | '"' :: rest => do
    let (key, rest) ← readString rest
    match skipBlanks rest with
    | ':' :: rest => some (key, rest)
    | _ => none
  | _ => none

mutual

/-- One value and what follows it. The fuel bounds how deeply the reading is nested. -/
def readValue : Nat → List Char → Option (Json × List Char)
  | 0, _ => none
  | fuel + 1, cs =>
    match skipBlanks cs with
    | 'n' :: 'u' :: 'l' :: 'l' :: rest => some (null, rest)
    | 't' :: 'r' :: 'u' :: 'e' :: rest => some (bool true, rest)
    | 'f' :: 'a' :: 'l' :: 's' :: 'e' :: rest => some (bool false, rest)
    | '"' :: rest => do
      let (lexeme, rest) ← readString rest
      return (string lexeme, rest)
    | '[' :: rest =>
      match skipBlanks rest with
      | ']' :: rest => some (array [], rest)
      | rest => do
        let (items, rest) ← readItems fuel rest
        return (array items, rest)
    | '\x7b' :: rest =>
      match skipBlanks rest with
      | '\x7d' :: rest => some (object [], rest)
      | rest => do
        let (members, rest) ← readMembers fuel rest
        return (object members, rest)
    | cs => do
      let (lexeme, rest) ← readNumber cs
      return (number lexeme, rest)

def readItems : Nat → List Char → Option (List Json × List Char)
  | 0, _ => none
  | fuel + 1, cs => do
    let (v, rest) ← readValue fuel cs
    match skipBlanks rest with
    | ',' :: rest =>
      let (vs, rest) ← readItems fuel rest
      return (v :: vs, rest)
    | ']' :: rest => return ([v], rest)
    | _ => none

def readMembers : Nat → List Char → Option (List (Lexeme × Json) × List Char)
  | 0, _ => none
  | fuel + 1, cs => do
    let (k, rest) ← readKey cs
    let (v, rest) ← readValue fuel rest
    match skipBlanks rest with
    | ',' :: rest =>
      let (ms, rest) ← readMembers fuel rest
      return ((k, v) :: ms, rest)
    | '\x7d' :: rest => return ([(k, v)], rest)
    | _ => none

end

/-- The value at the front of the text and what follows it. An item and its value take two steps,
and each item takes up a character, so twice the length of the text is enough fuel. -/
def read (cs : List Char) : Option (Json × List Char) := readValue (2 * cs.length + 1) cs

def atEnd (cs : List Char) : Bool := (skipBlanks cs).isEmpty

/-- The value of a text that holds one value and nothing else but blanks. -/
def parse? (s : String) : Option Json := do
  let (v, rest) ← read s.toList
  if atEnd rest then return v else none

end Json

end TripleGrammar
