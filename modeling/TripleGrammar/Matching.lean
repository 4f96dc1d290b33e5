import TripleGrammar.Embedding.Backtracking
import TripleGrammar.Event
import TripleGrammar.Graph.Part
import TripleGrammar.Match

/-!
# Finding a match for a rule

A rule applies where its context embeds in the host such that types and domains agree. An embedding
is passed over when firing there would repeat what is linked already: the rule creates
correspondences, and for each type among them the host has a correspondence of that type which links
exactly the same nodes of the domain that is read. The first embedding that is not passed over is
the match.
-/

namespace TripleGrammar

/-- What a search for a match has come to. -/
structure MatchSearch where
  found : Match := ∅
  /-- The images of the embeddings that were passed over, in order. -/
  skipped : Array (List NodeId) := #[]

/-- One event for each embedding that was passed over. The rule goes by the name of its graph. -/
def MatchSearch.events (s : MatchSearch) (rule : Option String) : List Event :=
  s.skipped.toList.map fun image => .matchSkipped rule image

namespace Graph

def labelsAgree (host pattern : Graph) (i j : Nat) : Bool :=
  match pattern.nodes[i]?, host.nodes[j]? with
  | some p, some h => p.sameLabel h
  | _, _ => false

def matchOf (host pattern : Graph) (m : BitMatrix) : Match :=
  m.ones.foldl (fun found (i, j) =>
    match pattern.nodes[i]?, host.nodes[j]? with
    | some p, some h => found.insert p.id h.id
    | _, _ => found) ∅

def createdLinkKinds (rule : Graph) : List String :=
  ((rule.nodesIn .correspondence).filter (·.hasAction .create)).map (·.kind)

/-- Whether there are types of correspondences, and for each of them there is a link of that type
that joins exactly the given nodes. -/
def repeatsLinks (links : List Link) (kinds : List String) (ids : List NodeId) : Bool :=
  -- a rule that creates no correspondence repeats nothing
  !kinds.isEmpty && kinds.all fun k => links.any fun l => l.node.kind == k && l.joins ids

/-- The types are repeated exactly if they all occur among the correspondences that link the given
nodes. -/
theorem repeatsLinks_iff_linksTo {g : Graph} {d : Domain} {kinds : List String}
    {nodes : List Node} : repeatsLinks (g.links d) kinds (Node.idsIn d nodes) = true ↔
      kinds ≠ [] ∧ ∀ k ∈ kinds, ∃ c ∈ g.linksTo nodes d, c.kind = k := by
  have hlinked : ∀ k, ((g.links d).any fun l => l.node.kind == k && l.joins (Node.idsIn d nodes)) =
      true ↔ ∃ c ∈ g.linksTo nodes d, c.kind = k := by
    intro k
    unfold linksTo
    simp only [List.any_eq_true, List.mem_map, List.mem_filter, Bool.and_eq_true, beq_iff_eq]
    constructor
    · rintro ⟨l, hl, hkind, hjoins⟩
      exact ⟨l.node, ⟨l, ⟨hl, hjoins⟩, rfl⟩, hkind⟩
    · rintro ⟨_, ⟨l, ⟨hl, hjoins⟩, rfl⟩, hkind⟩
      exact ⟨l, hl, hkind, hjoins⟩
  unfold repeatsLinks
  simp only [Bool.and_eq_true, Bool.not_eq_true', List.isEmpty_eq_false_iff, List.all_eq_true,
    hlinked]

/-- Looks at one assignment of the context's nodes: it is left aside if labels disagree, passed over
if it repeats one of the links into `d`, and otherwise taken as the match. -/
def considerMatch (host pattern : Graph) (links : List Link) (kinds : List String) (d : Domain)
    (m : BitMatrix) (s : MatchSearch) : ForInStep MatchSearch :=
  if m.ones.all fun (i, j) => host.labelsAgree pattern i j then
    let candidate := host.matchOf pattern m
    let ids := Node.idsIn d (candidate.image.filterMap host.find?)
    if repeatsLinks links kinds ids then
      .yield { s with skipped := s.skipped.push candidate.image }
    else .done { s with found := candidate }
  -- reached only if the strategy does not heed which nodes are compatible
  else .yield s

/-- Searches the host for a match of the rule, read from `d`. -/
def searchMatch (host rule : Graph) (d : Domain) (S : Strategy) : MatchSearch :=
  let pattern := rule.context d
  (S.search host.adjacency pattern.adjacency (host.labelsAgree pattern)
    (host.considerMatch pattern (host.links d) rule.createdLinkKinds d) {}).value

def findMatch (host rule : Graph) (d : Domain) (S : Strategy := .backtracking) : Match :=
  (host.searchMatch rule d S).found

end Graph

end TripleGrammar
