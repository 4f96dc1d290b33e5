import TripleGrammar.Proofs.Drawings

/-!
# Tokens of the DOT language

A text in the DOT language is cut into keywords, identifiers and marks, between which there may be
blanks. A bare identifier ends where neither a letter nor a digit nor an underscore comes next, and
a quoted one at the first quote that no backslash takes along. Six words are keywords, in whatever
case they are written, unless they are quoted. What is written as an identifier is cut off as one
token: it is closed where it should be, but no text is quoted for being a keyword.
-/

namespace TripleGrammar

namespace Dot

variable {c : Char} {cs rest : List Char} {s : String}

/-! ### Tokens -/

/-- The words that stand for no identifier unless they are quoted. -/
inductive Keyword where
  | node
  | edge
  | graph
  | digraph
  | subgraph
  | strict
deriving DecidableEq

namespace Keyword

def all : List Keyword := [node, edge, graph, digraph, subgraph, strict]

def text : Keyword → String
  | node => "node"
  | edge => "edge"
  | graph => "graph"
  | digraph => "digraph"
  | subgraph => "subgraph"
  | strict => "strict"

end Keyword

/-- The keyword that the characters make up, in whatever case they are written. -/
def keyword? (cs : List Char) : Option Keyword :=
  Keyword.all.find? fun k => cs.map Char.toLower == k.text.toList

inductive Token where
  | keyword (k : Keyword)
  /-- An identifier, given by the characters between its quotes. Without quotes it has the same. -/
  | identifier (lexeme : List Char)
  | mark (c : Char)
  | arrow
deriving DecidableEq

def isMark (c : Char) : Bool := ['\x7b', '\x7d', '[', ']', '=', ',', ';'].contains c

/-- The characters before the quote that closes an identifier, and what follows it. A backslash
takes the character after it along. -/
def readQuoted : List Char → Option (List Char × List Char)
  | [] => none
  | '"' :: rest => some ([], rest)
  | '\\' :: c :: rest => (readQuoted rest).map fun p => ('\\' :: c :: p.1, p.2)
  | c :: rest => (readQuoted rest).map fun p => (c :: p.1, p.2)

def startsWord (c : Char) : Bool := c.isAlpha || c == '_'

/-- A word is a keyword if it can be one. -/
def Token.ofWord (cs : List Char) : Token := ((keyword? cs).map keyword).getD (identifier cs)

/-- The token at the front of the text and what follows it. What begins like a numeral, a comment or
a text in angle brackets is no token here. -/
def readToken : List Char → Option (Token × List Char)
  | [] => none
  | '"' :: rest => (readQuoted rest).map fun p => (.identifier p.1, p.2)
  | '-' :: '>' :: rest => some (.arrow, rest)
  | c :: rest =>
    if isMark c then some (.mark c, rest)
    else if startsWord c then
      some (.ofWord (c :: rest.takeWhile isWordChar), rest.dropWhile isWordChar)
    else none

lemma length_le_of_readQuoted {lexeme : List Char} (h : readQuoted cs = some (lexeme, rest)) :
    rest.length ≤ cs.length := by
  fun_induction readQuoted cs generalizing lexeme with
  | case1 => cases h
  | case2 cs =>
    cases h
    exact Nat.le_succ _
  | case3 c cs ih =>
    obtain ⟨p, hp, heq⟩ := Option.map_eq_some_iff.mp h
    cases heq
    exact (ih hp).trans (Nat.le_add_right _ 2)
  | case4 c cs _ _ ih =>
    obtain ⟨p, hp, heq⟩ := Option.map_eq_some_iff.mp h
    cases heq
    exact (ih hp).trans (Nat.le_succ _)

lemma length_lt_of_readToken {t : Token} (h : readToken cs = some (t, rest)) :
    rest.length < cs.length := by
  unfold readToken at h
  split at h
  case h_1 => cases h
  case h_2 cs =>
    obtain ⟨p, hp, heq⟩ := Option.map_eq_some_iff.mp h
    cases heq
    exact Nat.lt_succ_of_le (length_le_of_readQuoted hp)
  case h_3 cs =>
    cases h
    exact Nat.lt_add_of_pos_right (Nat.succ_pos 1)
  case h_4 c cs _ _ =>
    split at h
    · cases h
      exact Nat.lt_succ_self _
    · split at h
      · cases h
        exact Nat.lt_succ_of_le (List.length_dropWhile_le _ _)
      · cases h

/-- The tokens of a text, between which there may be blanks. -/
def tokens? : List Char → Option (List Token)
  | [] => some []
  | c :: cs =>
    if c.isWhitespace then tokens? cs
    else
      match _h : readToken (c :: cs) with
      | none => none
      | some (t, rest) => (tokens? rest).map (t :: ·)
termination_by cs => cs.length
decreasing_by
  · exact Nat.lt_succ_self _
  · exact length_lt_of_readToken _h

/-! ### The tokens of a text one by one -/

lemma tokens?_nil : tokens? [] = some [] := by rw [tokens?]

lemma tokens?_blank (hc : c.isWhitespace = true) : tokens? (c :: cs) = tokens? cs := by
  rw [tokens?, if_pos hc]

lemma readToken_blank (hc : c.isWhitespace = true) : readToken (c :: cs) = none := by
  have hcases : c = ' ' ∨ c = '\t' ∨ c = '\r' ∨ c = '\n' := by
    simpa [Char.isWhitespace, or_assoc] using hc
  rcases hcases with rfl | rfl | rfl | rfl <;> rfl

lemma tokens?_of_readToken {t : Token} (h : readToken cs = some (t, rest)) :
    tokens? cs = (tokens? rest).map (t :: ·) := by
  cases cs with
  | nil => cases h
  | cons c cs =>
    have hc : ¬c.isWhitespace = true := by
      intro hc
      rw [readToken_blank hc] at h
      cases h
    rw [tokens?, if_neg hc]
    split
    next hnone =>
      rw [h] at hnone
      cases hnone
    next t' rest' hsome =>
      rw [h] at hsome
      cases hsome
      rfl

lemma mark_cases (hc : isMark c = true) :
    c = '\x7b' ∨ c = '\x7d' ∨ c = '[' ∨ c = ']' ∨ c = '=' ∨ c = ',' ∨ c = ';' := by
  simpa [isMark] using hc

lemma tokens?_mark (hc : isMark c = true) :
    tokens? (c :: cs) = (tokens? cs).map (.mark c :: ·) := by
  apply tokens?_of_readToken
  rcases mark_cases hc with rfl | rfl | rfl | rfl | rfl | rfl | rfl <;> rfl

lemma tokens?_arrow : tokens? ('-' :: '>' :: cs) = (tokens? cs).map (.arrow :: ·) :=
  tokens?_of_readToken rfl

/-! ### Identifiers -/

/-- The token of an identifier that stands for the text. -/
def Token.ofName (s : String) : Token := identifier (s.toList.flatMap quoteChar)

/-- The token that the text becomes if it is written as an identifier. -/
def Token.asWritten (s : String) : Token := ((keyword? s.toList).map keyword).getD (ofName s)

lemma isAlpha_of_toLower (h : c.toLower.isAlpha = true) : c.isAlpha = true := by
  unfold Char.toLower at h
  split at h
  next hrange =>
    have hupper : c.isUpper = true := decide_eq_true hrange
    exact Bool.or_eq_true_iff.mpr (Or.inl hupper)
  next => exact h

lemma isAlpha_of_mem_text (k : Keyword) : ∀ c ∈ k.text.toList, c.isAlpha = true := by
  have hletters : k.text.toList.all Char.isAlpha = true := by cases k <;> rfl
  exact List.all_eq_true.mp hletters

/-- A keyword is written with letters only. -/
lemma isAlpha_of_keyword? {k : Keyword} (h : keyword? cs = some k) : ∀ c ∈ cs, c.isAlpha = true := by
  have hsame : cs.map Char.toLower = k.text.toList := by simpa using List.find?_some h
  exact fun c hc => isAlpha_of_toLower (isAlpha_of_mem_text k _ (hsame ▸ List.mem_map_of_mem hc))

lemma isBare_of_keyword? {k : Keyword} (h : keyword? cs = some k) : isBare cs = true := by
  have hletters := isAlpha_of_keyword? h
  cases cs with
  | nil => cases h
  | cons c cs =>
    obtain ⟨hfirst, hrest⟩ := List.forall_mem_cons.mp hletters
    have hword : cs.all isWordChar = true := List.all_eq_true.mpr fun c' hc' => by
      simp [isWordChar, Char.isAlphanum, hrest c' hc']
    simp only [isBare, hfirst, hword, Bool.true_or, Bool.and_true]

lemma quoteChar_of_isWordChar (hc : isWordChar c = true) : quoteChar c = [c] := by
  apply if_neg
  intro hspecial
  have hcases : c = '\\' ∨ c = '"' := by simpa using hspecial
  rcases hcases with rfl | rfl <;> cases hc

/-- Between quotes a bare identifier is written in the same way. -/
lemma flatMap_quoteChar_of_isBare (h : isBare cs = true) : cs.flatMap quoteChar = cs := by
  rw [List.flatMap_congr fun c hc => quoteChar_of_isWordChar (isWordChar_of_isBare h c hc)]
  exact List.flatMap_singleton' cs

lemma isMark_of_startsWord (hc : startsWord c = true) : isMark c = false := by
  refine Bool.eq_false_iff.mpr fun hmark => ?_
  rcases mark_cases hmark with rfl | rfl | rfl | rfl | rfl | rfl | rfl <;> cases hc

lemma readToken_quote (cs : List Char) : readToken ('"' :: cs) =
    (readQuoted cs).map fun p => (.identifier p.1, p.2) := rfl

lemma readToken_word (hc : startsWord c = true) : readToken (c :: cs) =
    some (.ofWord (c :: cs.takeWhile isWordChar), cs.dropWhile isWordChar) := by
  unfold readToken
  split
  case h_1 heq => cases heq
  case h_2 heq =>
    cases heq
    cases hc
  case h_3 heq =>
    cases heq
    cases hc
  case h_4 heq =>
    cases heq
    rw [isMark_of_startsWord hc, if_neg Bool.false_ne_true, if_pos hc]

lemma readQuoted_flatMap (cs rest : List Char) :
    readQuoted (cs.flatMap quoteChar ++ '"' :: rest) = some (cs.flatMap quoteChar, rest) := by
  induction cs with
  | nil => rfl
  | cons c cs ih =>
    rw [List.flatMap_cons, List.append_assoc]
    rcases quoteChar_cases c with heq | ⟨heq, hback, hquote⟩
    · rw [heq]
      simp [readQuoted, ih]
    · rw [heq, List.singleton_append, List.singleton_append, readQuoted, ih]
      · rfl
      · exact hquote
      · exact fun c' _ hc' => absurd hc' hback

/-- An identifier is cut off where it ends, whether it is quoted or not. -/
lemma readToken_identifier (s : String) (hrest : EndsWord rest) :
    readToken ((identifier s).toList ++ rest) = some (Token.asWritten s, rest) := by
  rw [toList_identifier]
  split
  next hbare =>
    have hname : Token.asWritten s = .ofWord s.toList := by
      unfold Token.asWritten Token.ofWord Token.ofName
      rw [flatMap_quoteChar_of_isBare hbare]
    obtain ⟨htake, hdrop⟩ := span_append (isWordChar_of_isBare hbare) hrest
    rw [hname]
    cases hs : s.toList with
    | nil =>
      rw [hs] at hbare
      cases hbare
    | cons c cs =>
      rw [hs] at hbare htake hdrop
      obtain ⟨hfirst, -⟩ := (Bool.and_eq_true _ _).mp hbare
      have hc := isWordChar_of_isBare hbare c List.mem_cons_self
      rw [List.cons_append, List.takeWhile_cons_of_pos hc] at htake
      rw [List.cons_append, List.dropWhile_cons_of_pos hc] at hdrop
      rw [List.cons_append, readToken_word hfirst, htake, hdrop]
  next hbare =>
    have hname : Token.asWritten s = .ofName s := by
      unfold Token.asWritten
      cases hk : keyword? s.toList with
      | none => rfl
      | some k => exact absurd (isBare_of_keyword? hk) hbare
    rw [hname, quote_append, readToken_quote, readQuoted_flatMap]
    rfl

lemma tokens?_identifier (s : String) (hrest : EndsWord rest) :
    tokens? ((identifier s).toList ++ rest) = (tokens? rest).map (Token.asWritten s :: ·) :=
  tokens?_of_readToken (readToken_identifier s hrest)

lemma tokens?_word {w : String} (hbare : isBare w.toList = true)
    (hkeyword : keyword? w.toList = none) (hrest : EndsWord rest) :
    tokens? (w.toList ++ rest) = (tokens? rest).map (Token.ofName w :: ·) := by
  have htext : (identifier w).toList = w.toList := by rw [toList_identifier, if_pos hbare]
  have htoken : Token.asWritten w = .ofName w := by rw [Token.asWritten, hkeyword]; rfl
  rw [← htext, tokens?_identifier w hrest, htoken]

/-! ### Bare and quoted identifiers -/

/-- Letters, digits and underscores, of which there is at least one and the first is no digit. -/
def HasWordForm (s : String) : Prop :=
  ∃ c cs, s.toList = c :: cs ∧ c.isDigit = false ∧
    ∀ x ∈ s.toList, x.isAlpha = true ∨ x.isDigit = true ∨ x = '_'

/-- The text is written between quotes. -/
def IsQuoted (s : String) : Prop := (identifier s).toList.head? = some '"'

lemma isDigit_of_startsWord (hc : startsWord c = true) : c.isDigit = false := by
  refine Bool.eq_false_iff.mpr fun hdigit => ?_
  have hrange : 48 ≤ c.toNat ∧ c.toNat ≤ 57 := by
    simpa [Char.isDigit, UInt32.le_iff_toNat_le] using hdigit
  have hcases : c.isAlpha = true ∨ c = '_' := by simpa [startsWord] using hc
  rcases hcases with halpha | rfl
  · -- both letter cases begin after the digits
    have hletter : 65 ≤ c.toNat := by
      rcases Bool.or_eq_true_iff.mp halpha with hupper | hlower
      · exact UInt32.le_iff_toNat_le.mp (of_decide_eq_true hupper).1
      · have hfirst : 'a'.val ≤ c.val := of_decide_eq_true (Bool.and_eq_true_iff.mp hlower).1
        exact Nat.le_trans (by decide) (UInt32.le_iff_toNat_le.mp hfirst)
    omega
  · cases hdigit

lemma hasWordForm_of_isBare (h : isBare s.toList = true) : HasWordForm s := by
  have hword : ∀ x ∈ s.toList, x.isAlpha = true ∨ x.isDigit = true ∨ x = '_' := fun x hx => by
    simpa [isWordChar, Char.isAlphanum, or_assoc] using isWordChar_of_isBare h x hx
  unfold HasWordForm
  cases hs : s.toList with
  | nil =>
    rw [hs] at h
    cases h
  | cons c cs =>
    rw [hs] at h hword
    obtain ⟨hfirst, -⟩ := (Bool.and_eq_true _ _).mp h
    exact ⟨c, cs, rfl, isDigit_of_startsWord hfirst, hword⟩

lemma not_isQuoted_iff : ¬IsQuoted s ↔ isBare s.toList = true := by
  unfold IsQuoted
  rw [toList_identifier]
  by_cases hbare : isBare s.toList = true
  · refine ⟨fun _ => hbare, fun _ hhead => ?_⟩
    rw [if_pos hbare] at hhead
    cases isWordChar_of_isBare hbare '"' (List.mem_of_mem_head? hhead)
  · rw [if_neg hbare]
    exact ⟨fun hhead => absurd rfl hhead, fun h => absurd h hbare⟩

lemma asWritten_eq_iff : Token.asWritten s = .ofName s ↔ keyword? s.toList = none := by
  unfold Token.asWritten
  cases keyword? s.toList with
  | none => simp
  | some k => simp [Token.ofName]

end Dot

end TripleGrammar
