import TripleGrammar.Graph.Dot
import TripleGrammar.Proofs.JsonRecords
import TripleGrammar.Proofs.ReachableGraphs

/-!
# Drawings tell graphs apart

A drawing is a header and a list of lines, and it can be taken apart into them: a bare identifier
goes as far as there are letters, digits and underscores, a quoted one up to the first quote without
a backslash before it, and what comes next tells one kind of line from the other. A label ends in an
id, which is what follows the last underscore. So what a drawing shows of a graph can be told from
its text.
-/

namespace TripleGrammar

namespace Dot

variable {s s' : String} {c c' : Char} {cs cs' rest rest' : List Char}

/-! ### Identifiers -/

lemma quoteChar_cases (c : Char) :
    (quoteChar c = ['\\', c]) ∨ (quoteChar c = [c] ∧ c ≠ '\\' ∧ c ≠ '"') := by
  unfold quoteChar
  by_cases h : (c == '\\' || c == '"') = true
  · exact Or.inl (if_pos h)
  · refine Or.inr ⟨if_neg h, ?_⟩
    simpa using h

lemma quoteChar_append_inj (h : quoteChar c ++ rest = quoteChar c' ++ rest') :
    c = c' ∧ rest = rest' := by
  rcases quoteChar_cases c with heq | ⟨heq, hback, -⟩ <;>
    rcases quoteChar_cases c' with heq' | ⟨heq', hback', -⟩ <;>
    rw [heq, heq'] at h
  · simpa using h
  · exact absurd (List.cons.inj h).1.symm hback'
  · exact absurd (List.cons.inj h).1 hback
  · simpa using h

/-- No character between the quotes is written as the quote that closes them. -/
lemma quoteChar_append_ne (c : Char) (rest rest' : List Char) :
    quoteChar c ++ rest ≠ '"' :: rest' := by
  intro h
  rcases quoteChar_cases c with heq | ⟨heq, -, hquote⟩
  · rw [heq] at h
    cases h
  · rw [heq] at h
    exact hquote (List.cons.inj h).1

lemma flatMap_quoteChar_inj
    (h : cs.flatMap quoteChar ++ '"' :: rest = cs'.flatMap quoteChar ++ '"' :: rest') :
    cs = cs' ∧ rest = rest' := by
  induction cs generalizing cs' with
  | nil =>
    cases cs' with
    | nil => exact ⟨rfl, (List.cons.inj h).2⟩
    | cons c' cs' =>
      rw [List.flatMap_cons, List.append_assoc] at h
      exact absurd h.symm (quoteChar_append_ne c' _ _)
  | cons c cs ih =>
    rw [List.flatMap_cons, List.append_assoc] at h
    cases cs' with
    | nil => exact absurd h (quoteChar_append_ne c _ _)
    | cons c' cs' =>
      rw [List.flatMap_cons, List.append_assoc] at h
      obtain ⟨rfl, htail⟩ := quoteChar_append_inj h
      obtain ⟨rfl, hrest⟩ := ih htail
      exact ⟨rfl, hrest⟩

lemma isWordChar_of_isBare (h : isBare cs = true) : ∀ c ∈ cs, isWordChar c = true := by
  cases cs with
  | nil => cases h
  | cons c cs =>
    obtain ⟨hfirst, hrest⟩ := (Bool.and_eq_true _ _).mp h
    refine List.forall_mem_cons.mpr ⟨?_, List.all_eq_true.mp hrest⟩
    unfold isWordChar Char.isAlphanum
    revert hfirst
    cases c.isAlpha <;> simp +contextual

/-- A bare identifier that stands before the text ends there. -/
def EndsWord (rest : List Char) : Prop := ∀ c ∈ rest.head?, isWordChar c = false

lemma endsWord_cons (hc : isWordChar c = false) : EndsWord (c :: rest) := by
  rintro _ ⟨rfl⟩
  exact hc

lemma quote_append (cs rest : List Char) :
    quote cs ++ rest = '"' :: (cs.flatMap quoteChar ++ '"' :: rest) := by
  rw [quote, List.cons_append, List.append_assoc, List.singleton_append]

/-- A bare identifier does not begin with a quote. -/
lemma append_ne_quote (h : isBare cs = true) : cs ++ rest ≠ quote cs' ++ rest' := by
  intro heq
  cases cs with
  | nil => cases h
  | cons c cs =>
    have hc := isWordChar_of_isBare h c List.mem_cons_self
    rw [quote_append] at heq
    rw [(List.cons.inj heq).1] at hc
    cases hc

lemma toList_identifier (s : String) :
    (identifier s).toList = if isBare s.toList then s.toList else quote s.toList := by
  unfold identifier
  split
  · rfl
  · exact String.toList_ofList

/-- Where an identifier ends is known, and so is the text that it stands for. -/
lemma identifier_append_inj (hrest : EndsWord rest) (hrest' : EndsWord rest')
    (h : (identifier s).toList ++ rest = (identifier s').toList ++ rest') :
    s = s' ∧ rest = rest' := by
  rw [toList_identifier, toList_identifier] at h
  split at h
  next hbare =>
    split at h
    next hbare' =>
      obtain ⟨htake, hdrop⟩ := span_append (isWordChar_of_isBare hbare) hrest
      obtain ⟨htake', hdrop'⟩ := span_append (isWordChar_of_isBare hbare') hrest'
      rw [h] at htake hdrop
      exact ⟨String.toList_inj.mp (htake.symm.trans htake'), hdrop.symm.trans hdrop'⟩
    next => exact absurd h (append_ne_quote hbare)
  next =>
    split at h
    next hbare' => exact absurd h.symm (append_ne_quote hbare')
    next =>
      rw [quote_append, quote_append] at h
      obtain ⟨hs, hrest⟩ := flatMap_quoteChar_inj (List.cons.inj h).2
      exact ⟨String.toList_inj.mp hs, hrest⟩

lemma identifier_blank_inj
    (h : (identifier s).toList ++ ' ' :: rest = (identifier s').toList ++ ' ' :: rest') :
    s = s' ∧ rest = rest' := by
  obtain ⟨hs, hrest⟩ := identifier_append_inj (endsWord_cons rfl) (endsWord_cons rfl) h
  exact ⟨hs, (List.cons.inj hrest).2⟩

/-! ### Lines -/

/-- What a line of a drawing shows. -/
inductive Line where
  | node (label : String) (domain : Domain) (isDefault : Bool)
  | edge (tail head : String) (kind : Option String)

namespace Line

def isNode : Line → Bool
  | node _ _ _ => true
  | edge _ _ _ => false

/-- How a default correspondence is marked. -/
def mark (isDefault : Bool) : List Char := if isDefault then ", default=true".toList else []

/-- How the type of an edge is shown, if it has one. -/
def kindMark (kind : Option String) : List Char :=
  (kind.map fun k => " [label=".toList ++ (identifier k).toList ++ "]".toList).getD []

/-- The line and what follows it. -/
def write : Line → List Char → List Char
  | node label domain isDefault, rest =>
    '\t' :: ((identifier label).toList ++ ' ' :: ("[category=".toList ++ (domain.category.toList ++
      (mark isDefault ++ ("];\n".toList ++ rest)))))
  | edge tail head kind, rest =>
    '\t' :: ((identifier tail).toList ++ ' ' :: ("-> ".toList ++ ((identifier head).toList ++
      (kindMark kind ++ (";\n".toList ++ rest)))))

lemma category_append_inj {d d' : Domain}
    (h : d.category.toList ++ rest = d'.category.toList ++ rest') : d = d' ∧ rest = rest' := by
  revert h
  cases d <;> cases d' <;> simp [Domain.category]

lemma mark_append_inj {b b' : Bool}
    (h : mark b ++ ("];\n".toList ++ rest) = mark b' ++ ("];\n".toList ++ rest')) :
    b = b' ∧ rest = rest' := by
  revert h
  cases b <;> cases b' <;> simp [mark]

lemma kindMark_append_inj {k k' : Option String}
    (h : kindMark k ++ (";\n".toList ++ rest) = kindMark k' ++ (";\n".toList ++ rest')) :
    k = k' ∧ rest = rest' := by
  cases k with
  | none =>
    cases k' with
    | none => exact ⟨rfl, List.append_cancel_left h⟩
    | some k' => cases h
  | some k =>
    cases k' with
    | none => cases h
    | some k' =>
      simp only [kindMark, Option.map_some, Option.getD_some, List.append_assoc] at h
      obtain ⟨hk, htail⟩ :=
        identifier_append_inj (endsWord_cons rfl) (endsWord_cons rfl) (List.append_cancel_left h)
      exact ⟨congrArg some hk, by simpa using htail⟩

lemma endsWord_kindMark (k : Option String) (rest : List Char) :
    EndsWord (kindMark k ++ (";\n".toList ++ rest)) := by
  cases k with
  | none => exact endsWord_cons rfl
  | some k => exact endsWord_cons rfl

/-- Where a line ends is known, and so is what it shows. -/
lemma write_inj {l l' : Line} (h : l.write rest = l'.write rest') : l = l' ∧ rest = rest' := by
  cases l with
  | node label domain isDefault =>
    cases l' with
    | node label' domain' isDefault' =>
      obtain ⟨rfl, hlabel⟩ := identifier_blank_inj (List.cons.inj h).2
      obtain ⟨rfl, hdomain⟩ := category_append_inj (List.append_cancel_left hlabel)
      obtain ⟨rfl, hrest⟩ := mark_append_inj hdomain
      exact ⟨rfl, hrest⟩
    | edge tail' head' kind' =>
      obtain ⟨-, hlabel⟩ := identifier_blank_inj (List.cons.inj h).2
      -- after the blank, one line goes on with a bracket and the other with an arrow
      cases hlabel
  | edge tail head kind =>
    cases l' with
    | node label' domain' isDefault' =>
      obtain ⟨-, htail⟩ := identifier_blank_inj (List.cons.inj h).2
      cases htail
    | edge tail' head' kind' =>
      obtain ⟨rfl, htail⟩ := identifier_blank_inj (List.cons.inj h).2
      obtain ⟨rfl, hhead⟩ := identifier_append_inj (endsWord_kindMark _ _) (endsWord_kindMark _ _)
        (List.append_cancel_left htail)
      obtain ⟨rfl, hrest⟩ := kindMark_append_inj hhead
      exact ⟨rfl, hrest⟩

/-- No line begins like the end of a drawing. -/
lemma foldr_write_inj {ls ls' : List Line}
    (h : ls.foldr write ['\x7d'] = ls'.foldr write ['\x7d']) : ls = ls' := by
  induction ls generalizing ls' with
  | nil =>
    cases ls' with
    | nil => rfl
    | cons l' ls' => cases l' <;> cases h
  | cons l ls ih =>
    cases ls' with
    | nil => cases l <;> cases h
    | cons l' ls' =>
      obtain ⟨rfl, hrest⟩ := write_inj h
      rw [ih hrest]

/-- Texts that are written as lines are lines one after the other. -/
lemma toList_join_append {α : Type} {text : α → String} {line : α → Line}
    (h : ∀ a rest, (text a).toList ++ rest = (line a).write rest) (l : List α)
    (rest : List Char) :
    (String.join (l.map text)).toList ++ rest = (l.map line).foldr write rest := by
  rw [String.toList_join]
  induction l with
  | nil => rfl
  | cons a l ih =>
    rw [List.map_cons, List.flatMap_cons, List.append_assoc, ih, h]
    rfl

end Line

end Dot

/-! ### Labels -/

/-- What stands before the last of several equal characters is known, and so is what follows it. -/
lemma append_cons_inj {c : Char} {as bs as' bs' : List Char} (hbs : c ∉ bs) (hbs' : c ∉ bs')
    (h : as ++ c :: bs = as' ++ c :: bs') : as = as' ∧ bs = bs' := by
  rcases List.append_eq_append_iff.mp h with ⟨cs, rfl, htail⟩ | ⟨cs, rfl, htail⟩
  · cases cs with
    | nil => exact ⟨(List.append_nil _).symm, (List.cons.inj htail).2⟩
    | cons c' cs =>
      rw [(List.cons.inj htail).2] at hbs
      exact absurd (List.mem_append_right _ List.mem_cons_self) hbs
  · cases cs with
    | nil => exact ⟨List.append_nil _, (List.cons.inj htail).2.symm⟩
    | cons c' cs =>
      rw [(List.cons.inj htail).2] at hbs'
      exact absurd (List.mem_append_right _ List.mem_cons_self) hbs'

namespace Node

variable {n m : Node}

lemma toList_label (n : Node) :
    n.label.toList = n.kind.toList ++ '_' :: Lexeme.ofNatural n.id.raw.toNat := by
  unfold label NodeId.text Lexeme.ofNatural
  simp [Nat.repr_eq_ofList_toDigits]

/-- The id in a label is what follows the last underscore. -/
lemma label_inj : n.label = m.label ↔ n.id = m.id ∧ n.kind = m.kind := by
  constructor
  · intro h
    have htext := congrArg String.toList h
    rw [toList_label, toList_label] at htext
    obtain ⟨hkind, hid⟩ := append_cons_inj Nat.underscore_not_in_toDigits
      Nat.underscore_not_in_toDigits htext
    have hraw : n.id.raw = m.id.raw := UInt64.toNat_inj.mp (Lexeme.ofNatural_injective hid)
    exact ⟨congrArg NodeId.mk hraw, String.toList_inj.mp hkind⟩
  · rintro ⟨hid, hkind⟩
    unfold label
    rw [hid, hkind]

end Node

/-! ### The drawing of a graph -/

namespace Graph

variable {g h : Graph}

def nodeLine (n : Node) : Dot.Line := .node n.label n.domain n.isDefault

/-- The label that stands for a node where an edge has its end. -/
def labelAt (g : Graph) (id : NodeId) : String := ((g.find? id).map (·.label)).getD ""

def edgeLine (g : Graph) (e : Edge) : Dot.Line := .edge (g.labelAt e.tail) (g.labelAt e.head) e.kind

def lines (g : Graph) : List Dot.Line := g.nodes.map nodeLine ++ g.edges.map g.edgeLine

lemma toList_dotNodeLine (n : Node) (rest : List Char) :
    (dotNodeLine n).toList ++ rest = (nodeLine n).write rest := by
  unfold dotNodeLine nodeLine Dot.Line.write Dot.Line.mark
  cases n.isDefault <;> simp [String.toList_append]

lemma toList_dotEdgeLine (g : Graph) (e : Edge) (rest : List Char) :
    (g.dotEdgeLine e).toList ++ rest = (g.edgeLine e).write rest := by
  unfold dotEdgeLine edgeLine Dot.Line.write Dot.Line.kindMark dotNode labelAt
  cases e.kind <;> simp [String.toList_append]

/-- A drawing is its lines with a header before and a brace after them. -/
lemma toList_toDot (g : Graph) : g.toDot.toList = "digraph ".toList ++
    ((Dot.identifier (g.name.getD "G")).toList ++
      ' ' :: ("\x7b\n".toList ++ g.lines.foldr Dot.Line.write ['\x7d'])) := by
  unfold toDot lines
  rw [List.foldr_append, ← Dot.Line.toList_join_append g.toList_dotEdgeLine,
    ← Dot.Line.toList_join_append toList_dotNodeLine]
  simp [String.toList_append]

/-- Drawings are the same if their names and their lines are. -/
lemma toDot_eq_iff_lines :
    g.toDot = h.toDot ↔ g.name.getD "G" = h.name.getD "G" ∧ g.lines = h.lines := by
  rw [← String.toList_inj, toList_toDot, toList_toDot]
  constructor
  · intro heq
    obtain ⟨hname, hlines⟩ := Dot.identifier_blank_inj (List.append_cancel_left heq)
    exact ⟨hname, Dot.Line.foldr_write_inj (List.append_cancel_left hlines)⟩
  · rintro ⟨hname, hlines⟩
    rw [hname, hlines]

lemma filter_isNode_lines (g : Graph) : g.lines.filter (·.isNode) = g.nodes.map nodeLine := by
  have hnodes : (g.nodes.map nodeLine).filter (·.isNode) = g.nodes.map nodeLine :=
    List.filter_eq_self.mpr (List.forall_mem_map.mpr fun _ _ => rfl)
  have hedges : (g.edges.map g.edgeLine).filter (·.isNode) = [] :=
    List.filter_eq_nil_iff.mpr (List.forall_mem_map.mpr fun _ _ => Bool.false_ne_true)
  unfold lines
  rw [List.filter_append, hnodes, hedges, List.append_nil]

lemma lines_eq_iff : g.lines = h.lines ↔ g.nodes.map nodeLine = h.nodes.map nodeLine ∧
    g.edges.map g.edgeLine = h.edges.map h.edgeLine := by
  constructor
  · intro heq
    have hnodes : g.nodes.map nodeLine = h.nodes.map nodeLine := by
      rw [← filter_isNode_lines, heq, filter_isNode_lines]
    unfold lines at heq
    rw [hnodes] at heq
    exact ⟨hnodes, List.append_cancel_left heq⟩
  · rintro ⟨hnodes, hedges⟩
    unfold lines
    rw [hnodes, hedges]

/-! ### What a drawing shows -/

lemma map_eq_map_congr {α β γ δ : Type} {as : List α} {bs : List β} {f : α → γ} {g : β → γ}
    {f' : α → δ} {g' : β → δ} (h : ∀ a ∈ as, ∀ b ∈ bs, f a = g b ↔ f' a = g' b) :
    as.map f = bs.map g ↔ as.map f' = bs.map g' := by
  induction as generalizing bs with
  | nil => cases bs <;> simp
  | cons a as ih =>
    cases bs with
    | nil => simp
    | cons b bs =>
      rw [List.map_cons, List.map_cons, List.map_cons, List.map_cons, List.cons.injEq,
        List.cons.injEq, h a List.mem_cons_self b List.mem_cons_self]
      exact and_congr_right fun _ => ih fun a' ha b' hb =>
        h a' (List.mem_cons_of_mem _ ha) b' (List.mem_cons_of_mem _ hb)

lemma nodeLine_inj {n m : Node} : nodeLine n = nodeLine m ↔
    (n.id, n.kind, n.domain, n.isDefault) = (m.id, m.kind, m.domain, m.isDefault) := by
  simp only [nodeLine, Dot.Line.node.injEq, Node.label_inj, Prod.mk.injEq, and_assoc]

lemma WellFormed.labelAt_of_mem (hg : g.WellFormed) {n : Node} (hn : n ∈ g.nodes) :
    g.labelAt n.id = n.label := by
  unfold labelAt
  rw [hg.find?_of_mem hn]
  rfl

/-- Where an edge has its end can be told from the label. -/
lemma eq_of_labelAt_eq (hg : g.WellFormed) (hh : h.WellFormed) {x y : NodeId}
    (hx : g.contains x = true) (hy : h.contains y = true) (heq : g.labelAt x = h.labelAt y) :
    x = y := by
  obtain ⟨n, hn, rfl, -⟩ := hg.exists_find? hx
  obtain ⟨m, hm, rfl, -⟩ := hh.exists_find? hy
  rw [hg.labelAt_of_mem hn, hh.labelAt_of_mem hm] at heq
  exact (Node.label_inj.mp heq).1

lemma labelAt_congr (hg : g.WellFormed) (hh : h.WellFormed)
    (hnodes : g.nodes.map nodeLine = h.nodes.map nodeLine) {x : NodeId}
    (hx : g.contains x = true) : g.labelAt x = h.labelAt x := by
  obtain ⟨n, hn, rfl, -⟩ := hg.exists_find? hx
  obtain ⟨m, hm, heq⟩ := List.mem_map.mp (hnodes ▸ List.mem_map_of_mem hn)
  have hlabel : m.label = n.label := (Dot.Line.node.inj heq).1
  rw [hg.labelAt_of_mem hn, ← (Node.label_inj.mp hlabel).1, hh.labelAt_of_mem hm, hlabel]

lemma edgeLine_inj (hg : g.WellFormed) (hh : h.WellFormed)
    (hnodes : g.nodes.map nodeLine = h.nodes.map nodeLine) {e e' : Edge} (he : e ∈ g.edges)
    (he' : e' ∈ h.edges) :
    g.edgeLine e = h.edgeLine e' ↔ (e.tail, e.head, e.kind) = (e'.tail, e'.head, e'.kind) := by
  simp only [edgeLine, Dot.Line.edge.injEq, Prod.mk.injEq]
  constructor
  · rintro ⟨htail, hhead, hkind⟩
    exact ⟨eq_of_labelAt_eq hg hh (hg.contains_tail he) (hh.contains_tail he') htail,
      eq_of_labelAt_eq hg hh (hg.contains_head he) (hh.contains_head he') hhead, hkind⟩
  · rintro ⟨htail, hhead, hkind⟩
    exact ⟨htail ▸ labelAt_congr hg hh hnodes (hg.contains_tail he),
      hhead ▸ labelAt_congr hg hh hnodes (hg.contains_head he), hkind⟩

/-- Two graphs have the same drawing exactly if they have the same name, where no name counts as
`G`, and their nodes and edges agree one by one in all that is drawn, whatever the names and types
are made of. -/
theorem toDot_eq_iff (hg : g.WellFormed) (hh : h.WellFormed) :
    g.toDot = h.toDot ↔ g.name.getD "G" = h.name.getD "G" ∧
      g.nodes.map (fun n => (n.id, n.kind, n.domain, n.isDefault)) =
        h.nodes.map (fun n => (n.id, n.kind, n.domain, n.isDefault)) ∧
      g.edges.map (fun e => (e.tail, e.head, e.kind)) =
        h.edges.map (fun e => (e.tail, e.head, e.kind)) := by
  rw [toDot_eq_iff_lines, lines_eq_iff]
  refine and_congr_right fun _ => ?_
  rw [← map_eq_map_congr (f := nodeLine) fun n _ m _ => nodeLine_inj]
  exact and_congr_right fun hnodes =>
    map_eq_map_congr fun e he e' he' => edgeLine_inj hg hh hnodes he he'

/-- A type that looks like the rest of a line, and types with underscores and digits. A graph
without a name is drawn like one with the name `G`, and an edge with the empty type unlike one with
none. -/
theorem toDot_eq_iff_lookalikes :
    let n : Node := { id := ⟨1⟩, kind := "A\" [category=Source];\n\t\"B\\", domain := .source }
    let m : Node := { id := ⟨23⟩, kind := "T_2", domain := .target }
    let m' : Node := { id := ⟨3⟩, kind := "T_2", domain := .target }
    let e : Edge := { tail := ⟨1⟩, head := ⟨1⟩ }
    let e' : Edge := { tail := ⟨1⟩, head := ⟨1⟩, kind := some "" }
    let g := (assemble [n, m] [e]).after ∅
    let h := (assemble [n, m'] [e]).after ∅
    let k := (assemble [n, m] [e']).after ∅
    g.WellFormed ∧ h.WellFormed ∧ k.WellFormed ∧ g.toDot = (g.named "G").toDot ∧
      g.toDot ≠ h.toDot ∧ g.toDot ≠ k.toDot := by
  intro n m m' e e' g h k
  have hg : g.WellFormed := assemble_keeps_wellFormed _ _ ∅ (wellFormed_bare none)
  have hh : h.WellFormed := assemble_keeps_wellFormed _ _ ∅ (wellFormed_bare none)
  have hk : k.WellFormed := assemble_keeps_wellFormed _ _ ∅ (wellFormed_bare none)
  have hnames : g.name = none := by decide +kernel
  have hnodes : g.nodes.map (·.id) = [⟨1⟩, ⟨23⟩] := by decide +kernel
  have hnodes' : h.nodes.map (·.id) = [⟨1⟩, ⟨3⟩] := by decide +kernel
  have hkinds : g.edges.map (·.kind) = [none] := by decide +kernel
  have hkinds' : k.edges.map (·.kind) = [some ""] := by decide +kernel
  refine ⟨hg, hh, hk, ?_, ?_, ?_⟩
  · refine (toDot_eq_iff hg (hg.renamed (some "G"))).mpr ⟨?_, rfl, rfl⟩
    rw [hnames]
    rfl
  · intro heq
    obtain ⟨-, hsame, -⟩ := (toDot_eq_iff hg hh).mp heq
    have hids := congrArg (List.map Prod.fst) hsame
    rw [List.map_map, List.map_map] at hids
    have hlists : [(⟨1⟩ : NodeId), ⟨23⟩] = [⟨1⟩, ⟨3⟩] := hnodes.symm.trans (hids.trans hnodes')
    cases hlists
  · intro heq
    obtain ⟨-, -, hsame⟩ := (toDot_eq_iff hg hk).mp heq
    have hids := congrArg (List.map (·.2.2)) hsame
    rw [List.map_map, List.map_map] at hids
    have hlists : [(none : Option String)] = [some ""] := hkinds.symm.trans (hids.trans hkinds')
    cases hlists

end Graph

end TripleGrammar
