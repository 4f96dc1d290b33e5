import TripleGrammar.Json.Basic

/-!
# Lexemes of numbers and strings

The form of numbers and strings, and what they stand for. A natural number has one lexeme. A text
has many, among them the one that `escape` gives, in which the quote, the backslash and the control
characters are escaped and nothing else is.
-/

namespace TripleGrammar

namespace Lexeme

/-! ### Numbers -/

def skipDigits : List Char → Option (List Char)
  | c :: cs => if c.isDigit then some (cs.dropWhile Char.isDigit) else none
  | [] => none

def skipIntegral : List Char → Option (List Char)
  | '0' :: cs => some cs
  | cs => skipDigits cs

def skipFraction : List Char → Option (List Char)
  | '.' :: cs => skipDigits cs
  | cs => some cs

def skipSign : List Char → List Char
  | '+' :: cs => cs
  | '-' :: cs => cs
  | cs => cs

def skipExponent : List Char → Option (List Char)
  | 'e' :: cs => skipDigits (skipSign cs)
  | 'E' :: cs => skipDigits (skipSign cs)
  | cs => some cs

/-- The whole number but for a minus sign. -/
def skipUnsigned (cs : List Char) : Option (List Char) := do
  skipExponent (← skipFraction (← skipIntegral cs))

def isNumber : Lexeme → Bool
  | '-' :: cs => skipUnsigned cs == some []
  | cs => skipUnsigned cs == some []

def isNumberChar (c : Char) : Bool :=
  c.isDigit || c == '-' || c == '+' || c == '.' || c == 'e' || c == 'E'

def digitValue (c : Char) : Nat := c.toNat - '0'.toNat

/-- The number that the digits stand for, on top of those read before. -/
def ofDigits (digits : List Char) : Nat :=
  digits.foldl (fun n c => 10 * n + digitValue c) 0

/-- The natural number with the given lexeme: digits without a leading zero. -/
def natural? (cs : Lexeme) : Option Nat :=
  if skipIntegral cs == some [] then some (ofDigits cs) else none

def ofNatural (n : Nat) : Lexeme := Nat.toDigits 10 n

/-! ### Strings -/

def hexValue? (c : Char) : Option Nat :=
  if c.isDigit then some (c.toNat - '0'.toNat)
  else if 'a' ≤ c ∧ c ≤ 'f' then some (c.toNat - 'a'.toNat + 10)
  else if 'A' ≤ c ∧ c ≤ 'F' then some (c.toNat - 'A'.toNat + 10)
  else none

def codeUnit? (a b c d : Char) : Option Nat := do
  return (((← hexValue? a) * 16 + (← hexValue? b)) * 16 + (← hexValue? c)) * 16 + (← hexValue? d)

/-- The character that a backslash and one more character stand for. -/
def shortEscape? : Char → Option Char
  | '"' => some '"'
  | '\\' => some '\\'
  | '/' => some '/'
  | 'b' => some '\x08'
  | 'f' => some '\x0c'
  | 'n' => some '\n'
  | 'r' => some '\r'
  | 't' => some '\t'
  | _ => none

def isHighSurrogate (u : Nat) : Bool := decide (0xD800 ≤ u) && decide (u ≤ 0xDBFF)

def isLowSurrogate (u : Nat) : Bool := decide (0xDC00 ≤ u) && decide (u ≤ 0xDFFF)

def ofSurrogates (high low : Nat) : Char :=
  Char.ofNat (0x10000 + (high - 0xD800) * 0x400 + (low - 0xDC00))

/-- The text with the given lexeme. A surrogate that is not one of a pair stands for no text. -/
def unescape? : Lexeme → Option (List Char)
  | [] => some []
  | '\\' :: 'u' :: a :: b :: c :: d :: rest => do
    let u ← codeUnit? a b c d
    -- a code unit of a pair is no character by itself
    if isLowSurrogate u then none
    else if isHighSurrogate u then
      match rest with
      | '\\' :: 'u' :: e :: f :: g :: h :: rest => do
        let v ← codeUnit? e f g h
        if isLowSurrogate v then return ofSurrogates u v :: (← unescape? rest) else none
      | _ => none
    else return Char.ofNat u :: (← unescape? rest)
  | '\\' :: e :: rest => do return (← shortEscape? e) :: (← unescape? rest)
  | c :: rest => if c == '\\' then none else do return c :: (← unescape? rest)

def text? (cs : Lexeme) : Option String := (unescape? cs).map String.ofList

/-- The lexeme of one character: a short escape if it has one, the code if it is another control
character, and else the character itself. -/
def escapeChar (c : Char) : Lexeme :=
  match c with
  | '"' => ['\\', '"']
  | '\\' => ['\\', '\\']
  | '\x08' => ['\\', 'b']
  | '\x0c' => ['\\', 'f']
  | '\n' => ['\\', 'n']
  | '\r' => ['\\', 'r']
  | '\t' => ['\\', 't']
  | c =>
    if c.toNat < 0x20 then
      ['\\', 'u', '0', '0', Nat.digitChar (c.toNat / 16), Nat.digitChar (c.toNat % 16)]
    else [c]

def escape (cs : List Char) : Lexeme := cs.flatMap escapeChar

end Lexeme

namespace Json

def ofNat (n : Nat) : Json := number (Lexeme.ofNatural n)

def ofText (s : String) : Json := string (Lexeme.escape s.toList)

def member (key : String) (v : Json) : Lexeme × Json := (Lexeme.escape key.toList, v)

def ofMembers (ms : List (String × Json)) : Json := object (ms.map fun m => member m.1 m.2)

end Json

end TripleGrammar
