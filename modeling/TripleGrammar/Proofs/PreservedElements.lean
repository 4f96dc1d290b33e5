import TripleGrammar.Proofs.BacktrackingSearch
import TripleGrammar.Proofs.Edits
import TripleGrammar.Proofs.Matches
import TripleGrammar.Rule.Basic

/-!
# What a match asks of preserved elements

Where a rule applies, the host has all that the rule preserves: a node of the same type and domain
for each preserved node, and an edge between the right nodes for each preserved edge. The search
does not look at the types of edges, nor at the default flag of correspondences.
-/

namespace TripleGrammar

/-- The node without the default flag. -/
def Node.unmarked (n : Node) : Node := { n with isDefault := false }

namespace Graph

variable {host pattern rule : Graph} {d : Domain} {found : Match} {S : Strategy}

/-- The graph without the types of its edges and without default flags. -/
def unmarked (g : Graph) : Graph :=
  { g with
    nodes := g.nodes.map Node.unmarked
    edges := g.edges.map fun e => { e with kind := none } }

/-! ### What does not depend on marks -/

lemma getElem?_nodes_unmarked (i : Nat) :
    host.unmarked.nodes[i]? = (host.nodes[i]?).map Node.unmarked :=
  List.getElem?_map ..

lemma find?_unmarked (id : NodeId) : host.unmarked.find? id = (host.find? id).map .unmarked := by
  change (host.index.get? id).bind (host.unmarked.nodes[·]?) =
    ((host.index.get? id).bind (host.nodes[·]?)).map .unmarked
  cases host.index.get? id with
  | none => rfl
  | some i => exact getElem?_nodes_unmarked i

lemma idsIn_map_unmarked (nodes : List Node) :
    Node.idsIn d (nodes.map .unmarked) = Node.idsIn d nodes := by
  unfold Node.idsIn
  rw [List.filter_map, List.map_map]
  rfl

lemma successorsOf_unmarked (id : NodeId) :
    host.unmarked.successorsOf id = (host.successorsOf id).map .unmarked := by
  have hindex : host.unmarked.indexOf? id = host.indexOf? id := rfl
  have hadjacency : host.unmarked.adjacency = host.adjacency := rfl
  unfold successorsOf
  rw [hindex, hadjacency]
  cases host.indexOf? id with
  | none => rfl
  | some i =>
    dsimp only
    rw [List.map_filterMap]
    exact List.filterMap_congr fun j _ => getElem?_nodes_unmarked j

lemma repeatsLinks_unmarked (kinds : List String) (ids : List NodeId) :
    repeatsLinks (host.unmarked.links d) kinds ids = repeatsLinks (host.links d) kinds ids := by
  have hlinks : host.unmarked.links d =
      (host.links d).map fun l => { l with node := l.node.unmarked } := by
    unfold links nodesIn
    rw [List.map_map, unmarked, List.filter_map, List.map_map]
    refine List.map_congr_left fun c _ => ?_
    change ({ node := c.unmarked, ends := Node.idsIn d (host.unmarked.successorsOf c.id) } : Link) =
      { node := c.unmarked, ends := Node.idsIn d (host.successorsOf c.id) }
    rw [successorsOf_unmarked, idsIn_map_unmarked]
  unfold repeatsLinks
  rw [hlinks]
  simp only [List.any_map]
  rfl

lemma labelsAgree_unmarked (i j : Nat) :
    host.unmarked.labelsAgree pattern i j = host.labelsAgree pattern i j := by
  unfold labelsAgree
  rw [getElem?_nodes_unmarked]
  cases pattern.nodes[i]? <;> cases host.nodes[j]? <;> rfl

lemma matchOf_unmarked (m : BitMatrix) :
    host.unmarked.matchOf pattern m = host.matchOf pattern m := by
  unfold matchOf
  congr 1
  funext found ⟨i, j⟩
  dsimp only
  rw [getElem?_nodes_unmarked]
  cases pattern.nodes[i]? <;> cases host.nodes[j]? <;> rfl

lemma considerMatch_unmarked (kinds : List String) :
    host.unmarked.considerMatch pattern (host.unmarked.links d) kinds d =
      host.considerMatch pattern (host.links d) kinds d := by
  funext m s
  unfold considerMatch
  have hnodes : (host.matchOf pattern m).image.filterMap host.unmarked.find? =
      ((host.matchOf pattern m).image.filterMap host.find?).map .unmarked := by
    rw [List.map_filterMap]
    exact List.filterMap_congr fun id _ => find?_unmarked id
  simp only [labelsAgree_unmarked, matchOf_unmarked, repeatsLinks_unmarked, hnodes,
    idsIn_map_unmarked]

/-- The search comes to the same match on hosts that differ in marks only. -/
lemma findMatch_unmarked : host.unmarked.findMatch rule d S = host.findMatch rule d S := by
  unfold findMatch searchMatch
  dsimp only
  rw [considerMatch_unmarked]
  have hlabels : host.unmarked.labelsAgree (rule.context d) = host.labelsAgree (rule.context d) := by
    funext i j
    exact labelsAgree_unmarked i j
  rw [hlabels]
  rfl

/-! ### What a match asks for -/

lemma Fits.exists_edge_of_preserve (h : host.Fits rule d found) {e : Edge} (he : e ∈ rule.edges)
    (hpreserve : e.hasAction .preserve = true) :
    ∃ e' ∈ host.edges, found.get? e.tail = some e'.tail ∧ found.get? e.head = some e'.head :=
  h.edge e (mem_contextEdges_iff.mpr ⟨he, Or.inl hpreserve⟩)

lemma Fits.exists_node_of_preserve (h : host.Fits rule d found) (hrule : rule.WellFormed) {n : Node}
    (hn : n ∈ rule.nodes) (hpreserve : n.hasAction .preserve = true) :
    ∃ m ∈ host.nodes, found.get? n.id = some m.id ∧ m.kind = n.kind ∧ m.domain = n.domain := by
  have hcontains := (h.contains_iff n.id).mpr (context_contains hn (Or.inr hpreserve))
  obtain ⟨id, hid⟩ := Option.isSome_iff_exists.mp hcontains
  obtain ⟨m, hm, rfl, hkind, hdomain⟩ := h.exists_host_node hrule hn hid
  exact ⟨m, hm, hid, hkind, hdomain⟩

/-- Every match that is found binds each preserved node of the rule to a node of the same type and
domain, different ones to different nodes, and each preserved edge runs along an edge of the host.
Any other host with the same edges but for their types, and the same nodes but for their default
flags, has the same match. -/
theorem preserved_elements_found (hS : S.Sound) (hhost : host.WellFormed)
    (hrule : rule.WellFormed) (hfound : (host.findMatch rule d S).isEmpty = false) :
    (∀ n ∈ rule.nodes, n.hasAction .preserve = true → ∃ m ∈ host.nodes,
      (host.findMatch rule d S).get? n.id = some m.id ∧ m.kind = n.kind ∧ m.domain = n.domain) ∧
    (∀ a b id, (host.findMatch rule d S).get? a = some id →
      (host.findMatch rule d S).get? b = some id → a = b) ∧
    (∀ e ∈ rule.edges, e.hasAction .preserve = true → ∃ e' ∈ host.edges,
      (host.findMatch rule d S).get? e.tail = some e'.tail ∧
      (host.findMatch rule d S).get? e.head = some e'.head) ∧
    ∀ other : Graph, other.unmarked = host.unmarked →
      other.findMatch rule d S = host.findMatch rule d S := by
  have hfits : host.Fits rule d (host.findMatch rule d S) :=
    (fits_of_searchMatch hS hhost hrule hfound).1
  refine ⟨fun n hn hpreserve => hfits.exists_node_of_preserve hrule hn hpreserve,
    hfits.injective, fun e he hpreserve => hfits.exists_edge_of_preserve he hpreserve,
    fun other hsame => ?_⟩
  rw [← findMatch_unmarked, hsame, findMatch_unmarked]

/-- A queue and a function that it calls, and a default link of the queue. -/
theorem preserved_elements_found_calls :
    let queue : Node := { id := ⟨0⟩, kind := "Queue", domain := .source, action := some .preserve }
    let called : Node :=
      { id := ⟨1⟩, kind := "Function", domain := .source, action := some .preserve }
    let link : Node :=
      { id := ⟨2⟩, kind := "QueueAxiom", domain := .correspondence, action := some .preserve,
        isDefault := true }
    let rule := (assemble [queue, called, link]
      [{ tail := ⟨0⟩, head := ⟨1⟩, kind := some "Triggers", action := some .preserve },
       { tail := ⟨2⟩, head := ⟨0⟩, action := some .preserve }]).after ∅
    let host := (assemble
      [{ id := ⟨5⟩, kind := "Queue", domain := .source },
       { id := ⟨6⟩, kind := "Function", domain := .source },
       { id := ⟨7⟩, kind := "QueueAxiom", domain := .correspondence, isDefault := true }]
      [{ tail := ⟨5⟩, head := ⟨6⟩, kind := some "Triggers" },
       { tail := ⟨7⟩, head := ⟨5⟩ }]).after ∅
    host.WellFormed ∧ rule.WellFormed ∧ (host.findMatch rule .source).isEmpty = false ∧
      (∃ m ∈ host.nodes, (host.findMatch rule .source).get? ⟨2⟩ = some m.id ∧
        m.kind = "QueueAxiom" ∧ m.domain = .correspondence) ∧
      host.unmarked.findMatch rule .source = host.findMatch rule .source := by
  intro queue called link rule host
  have hhost : host.WellFormed := assemble_keeps_wellFormed _ _ ∅ (wellFormed_bare none)
  have hrule : rule.WellFormed := assemble_keeps_wellFormed _ _ ∅ (wellFormed_bare none)
  have hfound : (host.findMatch rule .source).isEmpty = false := by decide +kernel
  have hlink : link ∈ rule.nodes := by decide +kernel
  obtain ⟨hnodes, -, -, hmarks⟩ :=
    preserved_elements_found Strategy.backtracking_sound hhost hrule hfound
  have hunmarked : host.unmarked.unmarked = host.unmarked := by decide +kernel
  exact ⟨hhost, hrule, hfound, hnodes link hlink rfl, hmarks host.unmarked hunmarked⟩

/-- A match need not heed the type of a preserved edge or the default flag of a preserved link: the
only edge that runs from the queue to the function has another type, and the only link of the queue
is no default link. -/
theorem preserved_marks_not_compared :
    let queue : Node := { id := ⟨0⟩, kind := "Queue", domain := .source, action := some .preserve }
    let called : Node :=
      { id := ⟨1⟩, kind := "Function", domain := .source, action := some .preserve }
    let link : Node :=
      { id := ⟨2⟩, kind := "QueueAxiom", domain := .correspondence, action := some .preserve,
        isDefault := true }
    let mapping : Node :=
      { id := ⟨3⟩, kind := "Mapping", domain := .target, action := some .create }
    let triggers := (assemble [queue, called, link, mapping]
      [{ tail := ⟨0⟩, head := ⟨1⟩, kind := some "Triggers", action := some .preserve },
       { tail := ⟨2⟩, head := ⟨0⟩, action := some .preserve }]).after ∅
    let r : Rule := { name := "triggers", graph := triggers, tagged := by decide +kernel }
    let host := (assemble
      [{ id := ⟨5⟩, kind := "Queue", domain := .source },
       { id := ⟨6⟩, kind := "Function", domain := .source },
       { id := ⟨7⟩, kind := "QueueAxiom", domain := .correspondence }]
      [{ tail := ⟨5⟩, head := ⟨6⟩, kind := some "Invokes" },
       { tail := ⟨7⟩, head := ⟨5⟩ }]).after ∅
    let found := host.findMatch r.graph .source
    r.graph.WellFormed ∧ host.WellFormed ∧ found.isEmpty = false ∧
      (∃ e ∈ r.graph.edges, e.hasAction .preserve = true ∧ e.kind = some "Triggers" ∧
        ¬∃ e' ∈ host.edges, found.get? e.tail = some e'.tail ∧
          found.get? e.head = some e'.head ∧ e'.kind = e.kind) ∧
      ∃ n ∈ r.graph.nodes, n.hasAction .preserve = true ∧ n.domain = .correspondence ∧
        n.isDefault = true ∧
        ¬∃ m ∈ host.nodes, found.get? n.id = some m.id ∧ m.isDefault = true := by
  intro queue called link mapping triggers r host found
  have htriggers : triggers.WellFormed := assemble_keeps_wellFormed _ _ ∅ (wellFormed_bare none)
  have hr : r.graph.WellFormed := by
    dsimp only [r]
    exact htriggers
  have hhost : host.WellFormed := assemble_keeps_wellFormed _ _ ∅ (wellFormed_bare none)
  exact ⟨hr, hhost, by decide +kernel⟩

end Graph

end TripleGrammar
