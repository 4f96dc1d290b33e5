import TripleGrammar.BitMatrix.Basic
import TripleGrammar.Visit

/-!
# Search strategies

An embedding places the nodes of a pattern on nodes of a host, each on another one and every edge
on an edge. It is handed over as an assignment: the matrix with a row for each pattern node and a
column for each host node in which the set bits say which node goes where.

There can be factorially many embeddings, so a strategy shows them to a visitor one by one and ends
when the visitor has seen enough. The list of all of them is there to be reasoned about.
-/

namespace TripleGrammar

/-- A way to run through the embeddings of a pattern in a host, in an order of its own. -/
structure Strategy where
  /-- The assignments found for `host`, `pattern` and `compatible`, in order. `compatible i j` says
  whether pattern node `i` may be placed on host node `j`. -/
  embeddings (host pattern : BitMatrix) (compatible : Nat → Nat → Bool) : List BitMatrix
  /-- Shows the assignments to the visitor until it stops. -/
  search {σ : Type} (host pattern : BitMatrix) (compatible : Nat → Nat → Bool)
    (visit : BitMatrix → σ → ForInStep σ) (s : σ) : ForInStep σ
  search_eq {σ : Type} (host pattern : BitMatrix) (compatible : Nat → Nat → Bool)
    (visit : BitMatrix → σ → ForInStep σ) (s : σ) :
    search host pattern compatible visit s =
      visitEach visit (embeddings host pattern compatible) s

namespace Strategy

def silent : Strategy where
  embeddings _ _ _ := []
  search _ _ _ _ s := .yield s
  search_eq _ _ _ _ _ := rfl

/-- The same strategy, which is told that every node may be placed anywhere. -/
def unfiltered (S : Strategy) : Strategy where
  embeddings host pattern _ := S.embeddings host pattern fun _ _ => true
  search host pattern _ := S.search host pattern fun _ _ => true
  search_eq host pattern _ := S.search_eq host pattern fun _ _ => true

/-- The same assignments from the last to the first. All of them are found before any is shown. -/
def reversed (S : Strategy) : Strategy where
  embeddings host pattern compatible := (S.embeddings host pattern compatible).reverse
  search host pattern compatible visit :=
    visitEach visit (S.embeddings host pattern compatible).reverse
  search_eq _ _ _ _ _ := rfl

/-- All assignments of a pattern whose nodes may be placed anywhere. -/
def enumerate (S : Strategy) (host pattern : BitMatrix) : List BitMatrix :=
  (S.search host pattern (fun _ _ => true) (fun m found => .yield (m :: found)) []).value.reverse

/-- The assignments found until there are `limit` of them. At least one is looked for. -/
def takeFirst (S : Strategy) (limit : Nat) (host pattern : BitMatrix)
    (compatible : Nat → Nat → Bool) : List BitMatrix :=
  let visit (m : BitMatrix) (found : List BitMatrix) :=
    if limit ≤ found.length + 1 then ForInStep.done (m :: found) else .yield (m :: found)
  (S.search host pattern compatible visit []).value.reverse

end Strategy

end TripleGrammar
