import TripleGrammar.Graph.Basic

/-!
# Drawings of graphs

A graph as a text in the DOT language: a line for each node, with the graph it belongs to, and a
line for each edge. Names and labels that are no bare identifiers are quoted.
-/

namespace TripleGrammar

namespace Dot

def isWordChar (c : Char) : Bool := c.isAlphanum || c == '_'

/-- Letters, digits and underscores, of which the first is no digit. -/
def isBare : List Char → Bool
  | [] => false
  | c :: cs => (c.isAlpha || c == '_') && cs.all isWordChar

/-- A character between quotes. The quote and the backslash have a backslash before them. -/
def quoteChar (c : Char) : List Char := if c == '\\' || c == '"' then ['\\', c] else [c]

def quote (cs : List Char) : List Char := '"' :: (cs.flatMap quoteChar ++ ['"'])

/-- The text as an identifier, quoted unless it is a bare one. -/
def identifier (s : String) : String :=
  if isBare s.toList then s else String.ofList (quote s.toList)

end Dot

namespace Graph

def dotNode (g : Graph) (id : NodeId) : String :=
  Dot.identifier (((g.find? id).map (·.label)).getD "")

def dotNodeLine (n : Node) : String :=
  "\t" ++ Dot.identifier n.label ++ " [category=" ++ n.domain.category ++
    (if n.isDefault then ", default=true" else "") ++ "];\n"

def dotEdgeLine (g : Graph) (e : Edge) : String :=
  "\t" ++ g.dotNode e.tail ++ " -> " ++ g.dotNode e.head ++
    (match e.kind with
      | some k => " [label=" ++ Dot.identifier k ++ "]"
      | none => "") ++ ";\n"

/-- The drawing of the graph. A graph without a name is drawn under the name `G`. -/
def toDot (g : Graph) : String :=
  "digraph " ++ Dot.identifier (g.name.getD "G") ++ " \x7b\n" ++
    String.join (g.nodes.map dotNodeLine) ++ String.join (g.edges.map g.dotEdgeLine) ++ "\x7d"

end Graph

end TripleGrammar
