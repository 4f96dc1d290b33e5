import TripleGrammar.Proofs.DotTokens

/-!
# Drawings as sequences of tokens

The tokens of a drawing are those of a header and of one statement for each line, but that a
keyword may stand where an identifier should. Since the labels of nodes are no keywords, a drawing
consists of the tokens of its statements exactly if neither the name of the graph nor the type of an
edge is one.
-/

namespace TripleGrammar

namespace Dot

variable {rest : List Char}

/-! ### Lines -/

namespace Line

/-- The texts that the line shows as identifiers. -/
def identifiers : Line → List String
  | node label _ _ => [label]
  | edge tail head kind => tail :: head :: kind.toList

def setting (key : String) (value : Token) : List Token := [.ofName key, .mark '=', value]

/-- The statement of the line. What token stands for an identifier is given by `form`. -/
def tokens (form : String → Token) : Line → List Token
  | node label domain isDefault =>
    form label :: .mark '[' :: (setting "category" (.ofName domain.category) ++
      (if isDefault then .mark ',' :: setting "default" (.ofName "true") else []) ++
      [.mark ']', .mark ';'])
  | edge tail head kind =>
    form tail :: .arrow :: form head ::
      ((kind.map fun k => .mark '[' :: (setting "label" (form k) ++ [.mark ']'])).getD [] ++
        [.mark ';'])

lemma tokens?_setting {key : String} (hbare : isBare key.toList = true)
    (hkeyword : keyword? key.toList = none) :
    tokens? (key.toList ++ '=' :: rest) =
      (tokens? rest).map fun ts => .ofName key :: .mark '=' :: ts := by
  rw [tokens?_word hbare hkeyword (endsWord_cons rfl), tokens?_mark rfl, Option.map_map]
  rfl

lemma tokens?_semicolon : tokens? (";\n".toList ++ rest) = (tokens? rest).map (.mark ';' :: ·) := by
  have htext : ";\n".toList ++ rest = ';' :: '\n' :: rest := rfl
  rw [htext, tokens?_mark rfl, tokens?_blank rfl]

lemma tokens?_close : tokens? ("];\n".toList ++ rest) =
    (tokens? rest).map fun ts => .mark ']' :: .mark ';' :: ts := by
  have htext : "];\n".toList ++ rest = ']' :: (";\n".toList ++ rest) := rfl
  rw [htext, tokens?_mark rfl, tokens?_semicolon, Option.map_map]
  rfl

lemma endsWord_close : EndsWord ("];\n".toList ++ rest) := endsWord_cons rfl

lemma tokens?_mark_close (isDefault : Bool) :
    tokens? (mark isDefault ++ ("];\n".toList ++ rest)) = (tokens? rest).map
      (((if isDefault then .mark ',' :: setting "default" (.ofName "true") else []) ++
        [.mark ']', .mark ';']) ++ ·) := by
  cases isDefault with
  | false => exact tokens?_close
  | true =>
    have htext : mark true ++ ("];\n".toList ++ rest) = ',' :: ' ' ::
        ("default".toList ++ '=' :: ("true".toList ++ ("];\n".toList ++ rest))) := rfl
    rw [htext, tokens?_mark rfl, tokens?_blank rfl, tokens?_setting rfl rfl,
      tokens?_word rfl rfl endsWord_close, tokens?_close]
    simp only [Option.map_map]
    rfl

lemma tokens?_category (d : Domain) (hrest : EndsWord rest) :
    tokens? (d.category.toList ++ rest) =
      (tokens? rest).map (Token.ofName d.category :: ·) := by
  cases d <;> exact tokens?_word rfl rfl hrest

lemma endsWord_mark_close (isDefault : Bool) :
    EndsWord (mark isDefault ++ ("];\n".toList ++ rest)) := by
  cases isDefault <;> exact endsWord_cons rfl

lemma tokens?_kindMark (kind : Option String) :
    tokens? (kindMark kind ++ (";\n".toList ++ rest)) = (tokens? rest).map
      (((kind.map fun k => .mark '[' :: (setting "label" (Token.asWritten k) ++
        [.mark ']'])).getD [] ++ [.mark ';']) ++ ·) := by
  cases kind with
  | none => exact tokens?_semicolon
  | some k =>
    have htext : kindMark (some k) ++ (";\n".toList ++ rest) = ' ' :: '[' ::
        ("label".toList ++ '=' :: ((identifier k).toList ++ ("];\n".toList ++ rest))) := by
      simp [kindMark]
    rw [htext, tokens?_blank rfl, tokens?_mark rfl, tokens?_setting rfl rfl,
      tokens?_identifier k endsWord_close, tokens?_close]
    simp only [Option.map_map]
    rfl

/-- A line is cut into the tokens of its statement, but that keywords may stand for identifiers. -/
lemma tokens?_write (l : Line) (rest : List Char) :
    tokens? (l.write rest) = (tokens? rest).map (l.tokens Token.asWritten ++ ·) := by
  cases l with
  | node label domain isDefault =>
    have hopen : ∀ cs, "[category=".toList ++ cs = '[' :: ("category".toList ++ '=' :: cs) :=
      fun _ => rfl
    rw [write, tokens?_blank rfl, tokens?_identifier label (endsWord_cons rfl), tokens?_blank rfl,
      hopen, tokens?_mark rfl, tokens?_setting rfl rfl,
      tokens?_category domain (endsWord_mark_close isDefault), tokens?_mark_close]
    simp only [Option.map_map]
    rfl
  | edge tail head kind =>
    have harrow : ∀ cs, "-> ".toList ++ cs = '-' :: '>' :: ' ' :: cs := fun _ => rfl
    rw [write, tokens?_blank rfl, tokens?_identifier tail (endsWord_cons rfl), tokens?_blank rfl,
      harrow, tokens?_arrow, tokens?_blank rfl,
      tokens?_identifier head (endsWord_kindMark kind rest), tokens?_kindMark]
    simp only [Option.map_map]
    rfl

lemma tokens?_foldr_write (ls : List Line) (rest : List Char) :
    tokens? (ls.foldr write rest) =
      (tokens? rest).map (ls.flatMap (tokens Token.asWritten) ++ ·) := by
  induction ls with
  | nil => exact Option.map_id'.symm
  | cons l ls ih =>
    rw [List.foldr_cons, tokens?_write, ih, Option.map_map, List.flatMap_cons]
    congr 1
    funext ts
    exact (List.append_assoc _ _ _).symm

lemma length_tokens (form form' : String → Token) (l : Line) :
    (l.tokens form).length = (l.tokens form').length := by
  cases l with
  | node label domain isDefault => simp [tokens]
  | edge tail head kind => cases kind <;> simp [tokens, setting]

/-- The tokens of a line say which tokens stand for its identifiers. -/
lemma tokens_eq_iff {form form' : String → Token} {l : Line} :
    l.tokens form = l.tokens form' ↔ ∀ s ∈ l.identifiers, form s = form' s := by
  cases l with
  | node label domain isDefault => simp [tokens, identifiers]
  | edge tail head kind => cases kind <;> simp [tokens, setting, identifiers]

lemma flatMap_tokens_eq_iff {form form' : String → Token} {ls : List Line} :
    ls.flatMap (tokens form) = ls.flatMap (tokens form') ↔
      ∀ s ∈ ls.flatMap identifiers, form s = form' s := by
  induction ls with
  | nil => simp
  | cons l ls ih =>
    rw [List.flatMap_cons, List.flatMap_cons, List.flatMap_cons, List.forall_mem_append, ← ih,
      ← tokens_eq_iff]
    constructor
    · exact fun h => List.append_inj h (length_tokens form form' l)
    · rintro ⟨hline, hlines⟩
      rw [hline, hlines]

end Line

end Dot

namespace Node

/-- A label has an underscore before its id. -/
lemma keyword?_label (n : Node) : Dot.keyword? n.label.toList = none := by
  cases h : Dot.keyword? n.label.toList with
  | none => rfl
  | some k =>
    have hunderscore : '_' ∈ n.label.toList := by
      rw [toList_label]
      exact List.mem_append_right _ List.mem_cons_self
    cases Dot.isAlpha_of_keyword? h '_' hunderscore

end Node

namespace Graph

variable {g : Graph}

/-- The texts that a drawing shows as identifiers. -/
def identifiers (g : Graph) : List String := g.name.getD "G" :: g.lines.flatMap (·.identifiers)

/-- The tokens of a header and the statements of the lines, with the tokens for identifiers that
`form` gives. -/
def tokens (g : Graph) (form : String → Dot.Token) : List Dot.Token :=
  .keyword .digraph :: form (g.name.getD "G") :: .mark '\x7b' ::
    (g.lines.flatMap (·.tokens form) ++ [.mark '\x7d'])

/-- The tokens of a drawing are those of its statements, but that keywords may stand for
identifiers. -/
lemma tokens?_toDot (g : Graph) :
    Dot.tokens? g.toDot.toList = some (g.tokens Dot.Token.asWritten) := by
  have hheader : ∀ cs, "digraph ".toList ++ cs =
      (Dot.identifier "digraph").toList ++ ' ' :: cs := fun _ => rfl
  have hopen : ∀ cs, "\x7b\n".toList ++ cs = '\x7b' :: '\n' :: cs := fun _ => rfl
  have hclose : Dot.tokens? ['\x7d'] = some [.mark '\x7d'] := by
    rw [Dot.tokens?_mark rfl, Dot.tokens?_nil]
    rfl
  rw [toList_toDot, hheader, Dot.tokens?_identifier _ (Dot.endsWord_cons rfl), Dot.tokens?_blank rfl,
    Dot.tokens?_identifier _ (Dot.endsWord_cons rfl), Dot.tokens?_blank rfl, hopen,
    Dot.tokens?_mark rfl, Dot.tokens?_blank rfl, Dot.Line.tokens?_foldr_write, hclose]
  rfl

lemma tokens_eq_iff {form form' : String → Dot.Token} :
    g.tokens form = g.tokens form' ↔ ∀ s ∈ g.identifiers, form s = form' s := by
  unfold tokens identifiers
  rw [List.forall_mem_cons, ← Dot.Line.flatMap_tokens_eq_iff]
  simp

lemma keyword?_labelAt (g : Graph) (id : NodeId) : Dot.keyword? (g.labelAt id).toList = none := by
  unfold labelAt
  cases g.find? id with
  | none => rfl
  | some n => exact n.keyword?_label

/-- Neither the name under which the graph is drawn nor the type of an edge is a keyword. -/
def SparesKeywords (g : Graph) : Prop :=
  Dot.keyword? (g.name.getD "G").toList = none ∧
    ∀ e ∈ g.edges, ∀ k ∈ e.kind, Dot.keyword? k.toList = none

/-- The labels that a drawing shows are no keywords in any case. -/
lemma keyword?_identifiers_iff :
    (∀ s ∈ g.identifiers, Dot.keyword? s.toList = none) ↔ g.SparesKeywords := by
  unfold identifiers SparesKeywords
  rw [List.forall_mem_cons]
  refine and_congr_right fun _ => ?_
  constructor
  · intro h e he k hk
    apply h k
    refine List.mem_flatMap.mpr ⟨g.edgeLine e, ?_, ?_⟩
    · exact List.mem_append_right _ (List.mem_map_of_mem he)
    · simp only [edgeLine, Dot.Line.identifiers, List.mem_cons, Option.mem_toList]
      exact Or.inr (Or.inr hk)
  · intro h s hs
    obtain ⟨l, hl, hs⟩ := List.mem_flatMap.mp hs
    rcases List.mem_append.mp hl with hl | hl
    · obtain ⟨n, -, rfl⟩ := List.mem_map.mp hl
      rw [List.mem_singleton.mp hs]
      exact n.keyword?_label
    · obtain ⟨e, he, rfl⟩ := List.mem_map.mp hl
      simp only [edgeLine, Dot.Line.identifiers, List.mem_cons, Option.mem_toList] at hs
      rcases hs with rfl | rfl | hk
      · exact g.keyword?_labelAt e.tail
      · exact g.keyword?_labelAt e.head
      · exact h e he s hk

/-- In a drawing every identifier without quotes is a word, and every quoted one is closed by its
last quote and by none before. The labels of nodes are no keywords. The identifiers without quotes
are legal ones exactly if the name of the graph and the types of edges are no keywords either, and
exactly then the drawing is cut into the tokens of its statements. -/
theorem toDot_tokens_iff (g : Graph) :
    (∀ s ∈ g.identifiers, ¬Dot.IsQuoted s → Dot.identifier s = s ∧ Dot.HasWordForm s) ∧
      (∀ s ∈ g.identifiers, Dot.IsQuoted s → ∃ lexeme,
        (Dot.identifier s).toList = '"' :: (lexeme ++ ['"']) ∧
          ∀ rest, Dot.readQuoted (lexeme ++ '"' :: rest) = some (lexeme, rest)) ∧
      (∀ n ∈ g.nodes, Dot.keyword? n.label.toList = none) ∧
      ((∀ s ∈ g.identifiers, ¬Dot.IsQuoted s → Dot.keyword? s.toList = none) ↔
        g.SparesKeywords) ∧
      (Dot.tokens? g.toDot.toList = some (g.tokens Dot.Token.ofName) ↔ g.SparesKeywords) := by
  refine ⟨fun s _ hs => ?_, fun s _ hs => ?_, fun n _ => n.keyword?_label, ?_, ?_⟩
  · have hbare := Dot.not_isQuoted_iff.mp hs
    exact ⟨if_pos hbare, Dot.hasWordForm_of_isBare hbare⟩
  · refine ⟨s.toList.flatMap Dot.quoteChar, ?_, Dot.readQuoted_flatMap s.toList⟩
    have hbare : ¬Dot.isBare s.toList = true := fun h => Dot.not_isQuoted_iff.mpr h hs
    rw [Dot.toList_identifier, if_neg hbare, Dot.quote]
  · rw [← keyword?_identifiers_iff]
    refine forall₂_congr fun s _ => ⟨fun h => ?_, fun h _ => h⟩
    -- a keyword is never quoted
    cases hk : Dot.keyword? s.toList with
    | none => rfl
    | some k => rw [← hk, h (Dot.not_isQuoted_iff.mpr (Dot.isBare_of_keyword? hk))]
  · rw [tokens?_toDot, Option.some.injEq, tokens_eq_iff, ← keyword?_identifiers_iff]
    exact forall₂_congr fun s _ => Dot.asWritten_eq_iff

/-- A graph with the name `Node` and an edge with the type `strict`. Both stand in its drawing
without quotes, where they are keywords. -/
theorem toDot_writes_keywords :
    let n : Node := { id := ⟨0⟩, kind := "Queue", domain := .source }
    let e : Edge := { tail := ⟨0⟩, head := ⟨0⟩, kind := some "strict" }
    let g := ((addEdge e).after ((addNode n).after ∅)).named "Node"
    g.Reachable ∧
      g.toDot = "digraph Node \x7b\n\tQueue_0 [category=Source];\n" ++
        "\tQueue_0 -> Queue_0 [label=strict];\n\x7d" ∧
      (∃ s ∈ g.identifiers, ¬Dot.IsQuoted s ∧ Dot.keyword? s.toList ≠ none) ∧
      Dot.tokens? g.toDot.toList ≠ some (g.tokens Dot.Token.ofName) := by
  intro n e g
  have hg : g.Reachable := ((Reachable.empty.nodeAdded n).edgeAdded e).named "Node"
  have hname : "Node" ∈ g.identifiers := List.mem_cons_self
  have hbare : ¬Dot.IsQuoted "Node" := Dot.not_isQuoted_iff.mpr (by decide +kernel)
  refine ⟨hg, by decide +kernel, ⟨"Node", hname, hbare, by decide +kernel⟩, ?_⟩
  rw [tokens?_toDot]
  decide +kernel

end Graph

end TripleGrammar
