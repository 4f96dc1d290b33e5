import TripleGrammar.Node
import TripleGrammar.SortedMap

/-!
# Matches

A match binds nodes of a rule to nodes of a host, in the order of the rule nodes. The empty match
stands for there being none.
-/

namespace TripleGrammar

/-- Binds nodes of a rule to nodes of a host. -/
abbrev Match := SortedMap NodeId NodeId

/-- The host nodes that are bound, each once, ascending. -/
def Match.image (m : Match) : List NodeId :=
  (m.values.foldl (fun ids id => ids.insert id ()) (∅ : SortedMap NodeId Unit)).keys

end TripleGrammar
