import TripleGrammar.Embedding.Strategy

/-!
# Backtracking search

Pattern nodes are placed in index order, and for each the host nodes are tried in ascending order,
so the assignments come in lexicographic order. Before the search the host nodes for a pattern node
are narrowed down to those that have enough outgoing and incoming edges, a loop if one is needed,
and are compatible.

`Backtracking.explore` runs the search, `Backtracking.placements` lists what it finds, and
`Backtracking.explore_eq` says that the one shows the other.
-/

namespace TripleGrammar

namespace Backtracking

/-- The number of edges that leave each node. -/
def outDegrees (m : BitMatrix) : Array Nat :=
  (Array.range m.rows).map fun r => (List.range m.cols).countP (m.get r)

/-- The number of edges that arrive at each node. -/
def inDegrees (m : BitMatrix) : Array Nat :=
  (Array.range m.cols).map fun c => (List.range m.rows).countP (m.get · c)

/-- For each pattern node the host nodes worth trying, ascending. -/
def candidates (host pattern : BitMatrix) (compatible : Nat → Nat → Bool) : List (List Nat) :=
  let hostOut := outDegrees host
  let hostIn := inDegrees host
  let patternOut := outDegrees pattern
  let patternIn := inDegrees pattern
  (List.range pattern.rows).map fun i =>
    (List.range host.rows).filter fun j =>
      -- distinct edges at a node go to distinct edges, so degrees cannot shrink
      decide (patternOut.getD i 0 ≤ hostOut.getD j 0) &&
      decide (patternIn.getD i 0 ≤ hostIn.getD j 0) &&
      (!pattern.get i i || host.get j j) &&
      compatible i j

/-- The candidates of all pattern nodes, or `none` if there are too few host nodes or some pattern
node has no candidate. -/
def plan? (host pattern : BitMatrix) (compatible : Nat → Nat → Bool) : Option (List (List Nat)) :=
  if host.rows < pattern.rows then none
  else
    let choices := candidates host pattern compatible
    -- a node without candidates is found here and not at the end of every branch
    if choices.any List.isEmpty then none else some choices

/-- Whether the next pattern node may be placed on `j` once the earlier ones are placed on `placed`:
`j` is not taken, and each pattern edge to or from an earlier node is an edge of the host. -/
def fits (host pattern : BitMatrix) (placed : List Nat) (j : Nat) : Bool :=
  !placed.contains j &&
  -- earlier node `k` is placed on `m`; loops are checked with the candidates
  placed.zipIdx.all fun (m, k) =>
    (!pattern.get placed.length k || host.get j m) &&
    (!pattern.get k placed.length || host.get m j)

/-- The assignment that places pattern node `i` on the host node at position `i` of the list. -/
def assignment (host pattern : BitMatrix) (placed : List Nat) : BitMatrix :=
  .ofFn pattern.rows host.rows fun i j => placed[i]? == some j

/-- The ways to go on from `placed` when the remaining nodes have the given candidates. -/
def placements (host pattern : BitMatrix) : List (List Nat) → List Nat → List (List Nat)
  | [], placed => [placed]
  | choices :: rest, placed =>
    (choices.filter (fits host pattern placed)).flatMap fun j =>
      placements host pattern rest (placed ++ [j])

/-- Walks through the ways to go on from `placed`, and shows each complete one to the visitor. -/
def explore {σ : Type} (host pattern : BitMatrix) (visit : BitMatrix → σ → ForInStep σ) :
    List (List Nat) → List Nat → σ → ForInStep σ
  | [], placed, s => visit (assignment host pattern placed) s
  | choices :: rest, placed, s =>
    visitEach (fun j s =>
      if fits host pattern placed j then explore host pattern visit rest (placed ++ [j]) s
      else .yield s) choices s

theorem explore_eq {σ : Type} (host pattern : BitMatrix) (visit : BitMatrix → σ → ForInStep σ)
    (choices : List (List Nat)) (placed : List Nat) (s : σ) :
    explore host pattern visit choices placed s =
      visitEach visit ((placements host pattern choices placed).map (assignment host pattern))
        s := by
  induction choices generalizing placed s with
  | nil =>
    simp only [explore, placements, List.map_cons, List.map_nil, visitEach]
    split <;> simp [*]
  | cons js rest ih =>
    rw [visitEach_map, placements, visitEach_flatMap, visitEach_filter, explore]
    simp only [ih, visitEach_map]

end Backtracking

def Strategy.backtracking : Strategy where
  embeddings host pattern compatible :=
    match Backtracking.plan? host pattern compatible with
    | none => []
    | some choices =>
      (Backtracking.placements host pattern choices []).map (Backtracking.assignment host pattern)
  search host pattern compatible visit s :=
    match Backtracking.plan? host pattern compatible with
    | none => .yield s
    | some choices => Backtracking.explore host pattern visit choices [] s
  search_eq host pattern compatible visit s := by
    cases Backtracking.plan? host pattern compatible with
    | none => rfl
    | some choices => exact Backtracking.explore_eq host pattern visit choices [] s

end TripleGrammar
