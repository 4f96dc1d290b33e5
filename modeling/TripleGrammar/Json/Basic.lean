/-!
# JSON values

A JSON text as a tree. Numbers, strings and the keys of objects are kept as they are written, and
objects keep all their members in order: what a lexeme means, and which of several members with one
key counts, is for the reader of the tree to say.
-/

namespace TripleGrammar

/-- The characters with which a number or a string is written, a string without its quotes. -/
abbrev Lexeme := List Char

/-- A JSON value as it is written, blanks aside. -/
inductive Json where
  | null
  | bool (b : Bool)
  | number (lexeme : Lexeme)
  | string (lexeme : Lexeme)
  | array (items : List Json)
  | object (members : List (Lexeme × Json))

namespace Json

instance : Inhabited Json := ⟨null⟩

def quoted (lexeme : Lexeme) : List Char := '"' :: (lexeme ++ ['"'])

mutual

/-- The value without any blanks. -/
def render : Json → List Char
  | null => ['n', 'u', 'l', 'l']
  | bool true => ['t', 'r', 'u', 'e']
  | bool false => ['f', 'a', 'l', 's', 'e']
  | number lexeme => lexeme
  | string lexeme => quoted lexeme
  | array [] => ['[', ']']
  | array (v :: vs) => '[' :: (v.render ++ renderItems vs)
  | object [] => ['\x7b', '\x7d']
  | object ((k, v) :: ms) => '\x7b' :: (quoted k ++ ':' :: (v.render ++ renderMembers ms))

def renderItems : List Json → List Char
  | [] => [']']
  | v :: vs => ',' :: (v.render ++ renderItems vs)

def renderMembers : List (Lexeme × Json) → List Char
  | [] => ['\x7d']
  | (k, v) :: ms => ',' :: (quoted k ++ ':' :: (v.render ++ renderMembers ms))

end

def compact (v : Json) : String := String.ofList v.render

end Json

end TripleGrammar
