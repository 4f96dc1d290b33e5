import TripleGrammar.Proofs.Assembly
import TripleGrammar.Proofs.FirstMatch
import TripleGrammar.Rule.Draft

/-!
# Axioms of a grammar

An axiom has no context but the node that it reads. It finds every node of its type that no link of
its type joins alone, and gives it a twin in the other domain with a default correspondence between
the two.
-/

namespace TripleGrammar

namespace Domain

/-- The domain that is written when `d` is read. -/
def other : Domain → Domain
  | source => target
  | target => source
  | correspondence => correspondence

variable {d x : Domain}

lemma other_ne_correspondence (hd : d ≠ .correspondence) : d.other ≠ .correspondence := by
  cases d <;> simp_all [other]

lemma other_ne_self (hd : d ≠ .correspondence) : d.other ≠ d := by
  cases d <;> simp_all [other]

lemma other_other (d : Domain) : d.other.other = d := by
  cases d <;> rfl

lemma eq_other (hd : d ≠ .correspondence) (hx : x ≠ .correspondence) (hne : x ≠ d) :
    x = d.other := by
  cases d <;> cases x <;> simp_all [other]

end Domain

lemma Rule.ofGraph_eq {name : String} {g h : Graph}
    (hgraph : h = { g with name := g.name <|> some name }) (htagged : h.Tagged) :
    ofGraph name g = .ok { name, graph := h, tagged := htagged } := by
  subst hgraph
  exact dif_pos htagged

/-- The name of an axiom, and the types of its three nodes. -/
structure Pairing where
  name : String
  sourceKind : String
  targetKind : String
  linkKind : String
deriving DecidableEq

namespace Graph

/-- A correspondence of type `k` links the node and no other node of the domain. -/
def HasLink (g : Graph) (d : Domain) (k : String) (id : NodeId) : Prop :=
  ∃ c ∈ g.nodes, c.domain = .correspondence ∧ c.kind = k ∧ g.Joins d c.id [id]

instance (g : Graph) (d : Domain) (k : String) (id : NodeId) : Decidable (g.HasLink d k id) :=
  inferInstanceAs (Decidable (∃ c ∈ g.nodes, _))

end Graph

namespace Pairing

variable {a : Pairing} {d : Domain} {host : Graph} {found : Match} {id : NodeId}
  {ids : List NodeId}

def kindIn (a : Pairing) : Domain → String
  | .source => a.sourceKind
  | .target => a.targetKind
  | .correspondence => a.linkKind

/-- The node that the axiom creates in a domain. -/
def node (a : Pairing) (d : Domain) : Node :=
  { id := ⟨UInt64.ofNat d.rank⟩, kind := a.kindIn d, domain := d, action := some .create,
    isDefault := d == .correspondence }

/-- The edge that the axiom creates from its link to the node in a domain. -/
def edge (a : Pairing) (d : Domain) : Edge :=
  { tail := (a.node .correspondence).id, head := (a.node d).id, action := some .create }

def nodes (a : Pairing) : List Node :=
  [a.node .correspondence, a.node .source, a.node .target]

def edges (a : Pairing) : List Edge := [a.edge .source, a.edge .target]

def graph (a : Pairing) : Graph :=
  { (∅ : Graph).extend a.nodes a.edges with name := some a.name }

lemma nodes_graph (a : Pairing) : a.graph.nodes = a.nodes := Graph.nodes_extend

lemma bounds_edges (a : Pairing) : (a.nodes.foldl Graph.enter ∅).Bounds a.edges := by
  unfold Graph.Bounds
  simp only [Graph.contains_foldl_enter]
  simp [nodes, edges, edge]

lemma edges_graph (a : Pairing) : a.graph.edges = a.edges := Graph.edges_extend a.bounds_edges

lemma nodup_nodes (a : Pairing) : (a.nodes.map (·.id)).Nodup := by
  simp [nodes, node, Domain.rank]

lemma default_nodes (a : Pairing) :
    ∀ n ∈ a.nodes, n.isDefault = true → n.domain = .correspondence := by
  simp [nodes, node]

lemma wellFormed_graph (a : Pairing) : a.graph.WellFormed :=
  Graph.WellFormed.renamed (Graph.WellFormed.foldl_join id a.edges
    ((Graph.wellFormed_bare none).foldl_enter a.nodup_nodes (fun _ _ => rfl) a.default_nodes)) _

lemma tagged_graph (a : Pairing) : a.graph.Tagged := by
  unfold Graph.Tagged
  rw [nodes_graph, edges_graph]
  simp [nodes, edges, node, edge]

def rule (a : Pairing) : Rule := { name := a.name, graph := a.graph, tagged := a.tagged_graph }

lemma ofParts_eq (a : Pairing) :
    Graph.ofParts [a.node .source, a.node .target, a.node .correspondence] a.edges =
      .ok ((∅ : Graph).extend a.nodes a.edges) := by
  rw [Graph.ofParts_eq]
  · rfl
  · simp [node]
  · simp [edges, edge]

lemma pairing_eq (a : Pairing) :
    Rule.pairing a.name a.sourceKind a.targetKind a.linkKind = .ok a.rule := by
  have hgraph : a.graph = { (∅ : Graph).extend a.nodes a.edges with
      name := ((∅ : Graph).extend a.nodes a.edges).name <|> some a.name } := by
    rw [Graph.name_extend]
    rfl
  have hrule : Rule.ofGraph a.name ((∅ : Graph).extend a.nodes a.edges) = .ok a.rule :=
    Rule.ofGraph_eq hgraph a.tagged_graph
  have hparts := a.ofParts_eq
  unfold Rule.pairing Rule.Draft.build
  -- the handles of the draft are its own, so its edges resolve to those of the axiom
  change Except.bind (.ok a.edges) _ = _
  dsimp only [Except.bind]
  split
  next g hg =>
    obtain rfl := Except.ok.inj (hg.symm.trans hparts)
    exact hrule
  next e he => cases he.symm.trans hparts

lemma rules_eq {axioms : List Pairing} {rules : List Rule}
    (h : List.Forall₂ (fun a r => Rule.pairing a.name a.sourceKind a.targetKind a.linkKind = .ok r)
      axioms rules) : rules = axioms.map (·.rule) := by
  induction h with
  | nil => rfl
  | @cons a r axioms rules hr _ ih =>
    rw [List.map_cons, ← ih, Except.ok.inj (a.pairing_eq.symm.trans hr)]

/-! ### The context of an axiom, and what it creates -/

lemma hasCreation_rule (a : Pairing) : a.rule.hasCreation = true := by
  unfold Rule.hasCreation Graph.hasCreation
  rw [show a.rule.graph.nodes = a.nodes from a.nodes_graph]
  rfl

lemma createdLinkKinds_graph (a : Pairing) : a.graph.createdLinkKinds = [a.linkKind] := by
  unfold Graph.createdLinkKinds Graph.nodesIn
  rw [nodes_graph]
  rfl

lemma nodesIn_graph (a : Pairing) (hd : d ≠ .correspondence) :
    a.graph.nodesIn d = [a.node d] := by
  unfold Graph.nodesIn
  rw [nodes_graph]
  cases d with
  | source => rfl
  | target => rfl
  | correspondence => exact absurd rfl hd

lemma domainOf?_tail (a : Pairing) {e : Edge} (he : e ∈ a.edges) :
    a.graph.domainOf? e.tail = some .correspondence := by
  have hlink : a.node .correspondence ∈ a.graph.nodes := by
    rw [nodes_graph]
    exact List.mem_cons_self
  rcases List.mem_pair.mp he with rfl | rfl <;> exact a.wellFormed_graph.domainOf?_of_mem hlink

lemma edgeInside_graph (a : Pairing) (hd : d ≠ .correspondence) {e : Edge} (he : e ∈ a.edges) :
    a.graph.edgeInside d e = false := by
  unfold Graph.edgeInside
  rw [a.domainOf?_tail he]
  simp [hd.symm]

lemma contextEdges_graph (a : Pairing) (hd : d ≠ .correspondence) :
    a.graph.contextEdges d = [] := by
  rw [List.eq_nil_iff_forall_not_mem]
  intro e he
  rw [Graph.mem_contextEdges_iff, edges_graph] at he
  obtain ⟨he, hpreserve | hinside⟩ := he
  · rcases List.mem_pair.mp he with rfl | rfl <;> cases hpreserve
  · rw [a.edgeInside_graph hd he] at hinside
    cases hinside

lemma nodes_context (a : Pairing) (hd : d ≠ .correspondence) :
    (a.graph.context d).nodes = [a.node d] := by
  have hfilter : (a.graph.nodes.filter fun n => n.domain == d || n.hasAction .preserve) =
      [a.node d] := by
    rw [nodes_graph]
    cases d with
    | source => rfl
    | target => rfl
    | correspondence => exact absurd rfl hd
  unfold Graph.context
  rw [hfilter, a.contextEdges_graph hd]
  rfl

lemma contains_context_iff (a : Pairing) (hd : d ≠ .correspondence) (id : NodeId) :
    (a.graph.context d).contains id = true ↔ id = (a.node d).id := by
  rw [(Graph.isPart_context a.wellFormed_graph d).wellFormed.contains_iff, a.nodes_context hd]
  simp

lemma newTemplates_rule (a : Pairing) (hd : d ≠ .correspondence) :
    a.rule.newTemplates d = [a.node .correspondence, a.node d.other] := by
  have hcreation : a.rule.graph.creationNodes = a.nodes := by
    unfold Graph.creationNodes
    rw [show a.rule.graph.nodes = a.nodes from a.nodes_graph]
    rfl
  unfold Rule.newTemplates
  rw [hcreation]
  have hkeep : ∀ n : Node,
      (!(a.rule.graph.context d).contains n.id) = !(n.id == (a.node d).id) := by
    intro n
    rw [Bool.not_inj_iff, Bool.eq_iff_iff, beq_iff_eq]
    exact a.contains_context_iff hd n.id
  simp only [hkeep]
  cases d with
  | source => rfl
  | target => rfl
  | correspondence => exact absurd rfl hd

lemma newEdges_rule (a : Pairing) (hd : d ≠ .correspondence) : a.rule.newEdges d = a.edges := by
  have hcreated : a.rule.graph.edges.filter (·.hasAction .create) = a.edges := by
    rw [show a.rule.graph.edges = a.edges from a.edges_graph]
    rfl
  unfold Rule.newEdges
  rw [hcreated, List.filter_eq_self]
  intro e he
  rw [show a.rule.graph.edgeInside d e = false from a.edgeInside_graph hd he]
  rfl

/-! ### Which nodes are read -/

/-- The axiom has a match at the node, when it is read from `d`. -/
def Reads (a : Pairing) (d : Domain) (host : Graph) (id : NodeId) : Prop :=
  ∃ n ∈ host.nodes, n.id = id ∧ n.domain = d ∧ n.kind = a.kindIn d ∧
    ¬host.HasLink d a.linkKind id

lemma mem_boundIn_iff (hd : d ≠ .correspondence) (hhost : host.WellFormed)
    (hfits : host.Fits a.graph d found) :
    id ∈ host.boundIn d found ↔ found.get? (a.node d).id = some id := by
  rw [hfits.mem_boundIn_iff hhost a.wellFormed_graph, a.nodesIn_graph hd]
  simp only [List.mem_singleton, exists_eq_left]

lemma repeatsLinks_iff (a : Pairing) (hhost : host.WellFormed) (hids : ∀ x, x ∈ ids ↔ x = id) :
    Graph.repeatsLinks (host.links d) a.graph.createdLinkKinds ids = true ↔
      host.HasLink d a.linkKind id := by
  have hsame : ∀ x, x ∈ ids ↔ x ∈ [id] := by simpa using hids
  rw [Graph.repeatsLinks_congr _ hsame, Graph.repeatsLinks_iff hhost, a.createdLinkKinds_graph]
  simp [Graph.HasLink]

lemma exists_reads (hd : d ≠ .correspondence) (hhost : host.WellFormed)
    (hfound : (host.findMatch a.graph d).isEmpty = false) :
    ∃ id, (host.findMatch a.graph d).get? (a.node d).id = some id ∧ a.Reads d host id := by
  obtain ⟨hfits, hnew⟩ :=
    Graph.fits_of_searchMatch Strategy.backtracking_sound hhost a.wellFormed_graph hfound
  obtain ⟨n, hn, hget, hkind, hdomain⟩ :=
    hfits.label (a.node d) (by rw [a.nodes_context hd]; exact List.mem_singleton_self _)
  refine ⟨n.id, hget, n, hn, rfl, hdomain, hkind, fun hlink => ?_⟩
  have hbound : ∀ x, x ∈ host.boundIn d (host.searchMatch a.graph d .backtracking).found ↔
      x = n.id := by
    intro x
    rw [mem_boundIn_iff hd hhost hfits, hget, Option.some.injEq, eq_comm]
  rw [(a.repeatsLinks_iff hhost hbound).mpr hlink] at hnew
  cases hnew

lemma hasLink_of_isEmpty (hd : d ≠ .correspondence) (hhost : host.WellFormed)
    (hempty : (host.findMatch a.graph d).isEmpty = true) {n : Node} (hn : n ∈ host.nodes)
    (hdomain : n.domain = d) (hkind : n.kind = a.kindIn d) : host.HasLink d a.linkKind n.id := by
  obtain ⟨j, rfl⟩ := List.get_of_mem hn
  have hall : ∀ m ∈ (a.graph.context d).nodes, m = a.node d := by
    rw [a.nodes_context hd]
    exact fun m hm => List.mem_singleton.mp hm
  have hget : ∀ i, (a.graph.context d).nodes.get i = a.node d :=
    fun i => hall _ (List.get_mem _ i)
  have hone : (a.graph.context d).nodes.length = 1 := by
    rw [a.nodes_context hd]
    rfl
  -- there is one node to place and no edge to keep
  have hsuits : host.Suits (a.graph.context d) fun _ => j := by
    refine ⟨fun i k _ => Fin.ext (by omega), fun i => ?_, fun i => ?_, ?_⟩
    · rw [hget]
      exact hkind
    · rw [hget]
      exact hdomain
    · rintro i k ⟨e, he, -⟩
      rw [Graph.edges_context a.wellFormed_graph, a.contextEdges_graph hd] at he
      cases he
  have hnodes : (a.graph.context d).nodes ≠ [] := by
    rw [a.nodes_context hd]
    exact List.cons_ne_nil _ _
  have hlink : a.node .correspondence ∈ a.graph.nodes := by
    rw [nodes_graph]
    exact List.mem_cons_self
  obtain ⟨c, hc, hcd, hck, hjoins⟩ :=
    (Graph.repeats_of_isEmpty hhost a.wellFormed_graph hnodes hempty hsuits).2 _ hlink rfl rfl
  refine ⟨c, hc, hcd, hck, fun id => (hjoins id).trans ?_⟩
  rw [List.mem_singleton]
  constructor
  · rintro ⟨-, rfl, -⟩
    rfl
  · rintro rfl
    exact ⟨⟨0, by omega⟩, rfl, hdomain⟩

lemma isEmpty_findMatch_iff (hd : d ≠ .correspondence) (hhost : host.WellFormed) :
    (host.findMatch a.graph d).isEmpty = true ↔ ∀ id, ¬a.Reads d host id := by
  constructor
  · rintro hempty id ⟨n, hn, rfl, hdomain, hkind, hnew⟩
    exact hnew (hasLink_of_isEmpty hd hhost hempty hn hdomain hkind)
  · intro hnone
    by_contra hfound
    obtain ⟨id, -, hreads⟩ := exists_reads hd hhost (by simpa using hfound)
    exact hnone id hreads

end Pairing

end TripleGrammar
