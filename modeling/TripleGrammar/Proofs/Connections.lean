import TripleGrammar.Proofs.RoundTrips
import TripleGrammar.Proofs.Saturation
import Mathlib.Data.List.Dedup

/-!
# Rules that read an edge between paired nodes

Two axioms give each node of a bipartite graph its twin. A rule can read an edge of the graph
together with what the axioms have made of its ends. Such a rule finds its context once for each
edge, so it fires once for each pair of adjacent nodes, however many edges there are between them.
-/

namespace TripleGrammar

namespace Graph

variable {g : Graph} {s t : NodeId}

/-- All nodes are in the domain and of one of two types, and all edges run from nodes of the first
type to nodes of the second. -/
structure Bipartite (g : Graph) (k k' : String) (d : Domain) : Prop where
  nodes : ∀ n ∈ g.nodes, n.domain = d ∧ (n.kind = k ∨ n.kind = k')
  tails : ∀ e ∈ g.edges, ∃ n ∈ g.nodes, n.id = e.tail ∧ n.kind = k
  heads : ∀ e ∈ g.edges, ∃ n ∈ g.nodes, n.id = e.head ∧ n.kind = k'

/-- The nodes that an edge joins, each pair once. -/
def adjacentPairs (g : Graph) : List (NodeId × NodeId) :=
  (g.edges.map fun e => (e.tail, e.head)).dedup

lemma mem_adjacentPairs_iff :
    (s, t) ∈ g.adjacentPairs ↔ ∃ e ∈ g.edges, e.tail = s ∧ e.head = t := by
  unfold adjacentPairs
  simp only [List.mem_dedup, List.mem_map, Prod.mk.injEq]

end Graph

/-! ### The nodes of a trace -/

/-- The node that the trace has in each of the three domains. -/
def Trace.spot (t : Trace) (d : Domain) : Domain → NodeId
  | .source => t.endIn d .source
  | .target => t.endIn d .target
  | .correspondence => t.link

lemma Trace.spot_eq_endIn (t : Trace) {d x : Domain} (hx : x ≠ .correspondence) :
    t.spot d x = t.endIn d x := by
  cases x with
  | source => rfl
  | target => rfl
  | correspondence => exact absurd rfl hx

lemma Trace.spot_self (t : Trace) {d : Domain} (hd : d ≠ .correspondence) :
    t.spot d d = t.node := by
  rw [t.spot_eq_endIn hd, t.endIn_self]

lemma Trace.spot_other (t : Trace) {d : Domain} (hd : d ≠ .correspondence) :
    t.spot d d.other = t.twin := by
  rw [t.spot_eq_endIn (Domain.other_ne_correspondence hd), t.endIn_other hd]

namespace Traces

variable {axioms : List Pairing} {d : Domain} {host g : Graph} {ids s : IdSupply}
  {ts : List Trace} {t : Trace} {c : Node} {a : Pairing} {l : Domain → NodeId}

lemma exists_spot (h : Traces axioms d host ids ts g s) (hd : d ≠ .correspondence) (ht : t ∈ ts)
    (x : Domain) :
    ∃ m ∈ g.nodes, m.id = t.spot d x ∧ m.kind = t.rule.kindIn x ∧ m.domain = x := by
  by_cases hx : x = .correspondence
  · subst hx
    exact ⟨t.linkNode, h.linkNode_mem ht, rfl, rfl, rfl⟩
  · rw [t.spot_eq_endIn hx]
    by_cases hxd : x = d
    · obtain ⟨-, n, hn, hid, hdomain, hkind, -⟩ := h.reads t ht
      rw [hxd, t.endIn_self]
      exact ⟨n, h.mem_nodes_iff.mpr (Or.inl hn), hid, hkind, hdomain⟩
    · rw [Domain.eq_other hd hx hxd]
      exact ⟨t.twinNode d, h.twinNode_mem ht, (t.endIn_other hd).symm, rfl, rfl⟩

/-- A link of an axiom's type and what edges lead to from it belong to one trace of the axiom. -/
lemma exists_trace_of_link (h : Traces axioms d host ids ts g s) (hhost : host.WellFormed)
    (hd : d ≠ .correspondence) (hplain : ∀ n ∈ host.nodes, n.domain = d)
    (hlinks : (axioms.map (·.linkKind)).Nodup) (ha : a ∈ axioms) (hc : c ∈ g.nodes)
    (hcd : c.domain = .correspondence) (hck : c.kind = a.linkKind) (hl : c.id = l .correspondence)
    (hends : ∀ x, x ≠ .correspondence →
      ∃ e ∈ g.edges, e.tail = c.id ∧ e.head = l x ∧ g.domainOf? (l x) = some x) :
    ∃ t ∈ ts, t.rule = a ∧ ∀ x, l x = t.spot d x := by
  obtain ⟨t, ht, rfl⟩ := h.exists_link hd hplain hc hcd
  refine ⟨t, ht, List.inj_on_of_nodup_map hlinks (h.reads t ht).1 ha hck, fun x => ?_⟩
  by_cases hx : x = .correspondence
  · rw [hx]
    exact hl.symm
  · rw [t.spot_eq_endIn hx]
    exact List.mem_singleton.mp ((h.joins_link hhost hd ht hx (l x)).mp (hends x hx))

end Traces

/-! ### The context of the rule -/

namespace Domain

/-- The id of the rule's node in each domain that stands for what the first axiom has made of the
tail of the edge. -/
def tailId : Domain → NodeId
  | source => ⟨0⟩
  | target => ⟨2⟩
  | correspondence => ⟨4⟩

/-- The id of the rule's node in each domain that stands for what the second axiom has made of the
head of the edge. -/
def headId : Domain → NodeId
  | source => ⟨1⟩
  | target => ⟨3⟩
  | correspondence => ⟨5⟩

def all : List Domain := [source, target, correspondence]

lemma mem_all (x : Domain) : x ∈ all := by
  cases x <;> decide

end Domain

namespace Rule

/-- The context of the rule, read from `d`, is an edge between two nodes, with a default
correspondence of each axiom to the twin of the node. -/
structure Connects (r : Rule) (a b : Pairing) (d : Domain) : Prop where
  layered : r.Layered d
  nodes : ((r.graph.context d).nodes.map fun n => (n.id, n.kind, n.domain)).Perm
    (Domain.all.flatMap fun x => [(x.tailId, a.kindIn x, x), (x.headId, b.kindIn x, x)])
  edges : ((r.graph.contextEdges d).map fun e => (e.tail, e.head)).Perm
    ((d.tailId, d.headId) :: [Domain.source, .target].flatMap fun x =>
      [(Domain.correspondence.tailId, x.tailId), (Domain.correspondence.headId, x.headId)])

namespace Connects

variable {r : Rule} {a b : Pairing} {d x : Domain} {n : Node} {e : Edge} {k k' id : NodeId}
  {kind : String} {β : NodeId → NodeId}

section

variable (hc : r.Connects a b d)
include hc

lemma exists_node_iff :
    (∃ n ∈ (r.graph.context d).nodes, n.id = k ∧ n.kind = kind ∧ n.domain = x) ↔
      (k = x.tailId ∧ kind = a.kindIn x) ∨ (k = x.headId ∧ kind = b.kindIn x) := by
  have hmem := hc.nodes.mem_iff (a := (k, kind, x))
  simp only [List.mem_map, Prod.mk.injEq, List.mem_flatMap, List.mem_pair] at hmem
  rw [hmem]
  constructor
  · rintro ⟨y, -, ⟨rfl, rfl, rfl⟩ | ⟨rfl, rfl, rfl⟩⟩
    · exact Or.inl ⟨rfl, rfl⟩
    · exact Or.inr ⟨rfl, rfl⟩
  · rintro (⟨rfl, rfl⟩ | ⟨rfl, rfl⟩)
    · exact ⟨x, x.mem_all, Or.inl ⟨rfl, rfl, rfl⟩⟩
    · exact ⟨x, x.mem_all, Or.inr ⟨rfl, rfl, rfl⟩⟩

lemma exists_edge_iff : (∃ e ∈ r.graph.contextEdges d, e.tail = k ∧ e.head = k') ↔
    (k = d.tailId ∧ k' = d.headId) ∨ ∃ x : Domain, x ≠ .correspondence ∧
      ((k = Domain.correspondence.tailId ∧ k' = x.tailId) ∨
        (k = Domain.correspondence.headId ∧ k' = x.headId)) := by
  have hmem := hc.edges.mem_iff (a := (k, k'))
  simp only [List.mem_map, Prod.mk.injEq, List.mem_cons, List.mem_flatMap, List.not_mem_nil,
    or_false] at hmem
  rw [hmem]
  refine or_congr_right (exists_congr fun x => and_congr_left fun _ => ?_)
  cases x <;> decide

/-- The rule reads the two ends of the edge. -/
lemma mem_imageIn_iff : id ∈ r.graph.imageIn d β ↔ id = β d.tailId ∨ id = β d.headId := by
  have hpart := Graph.isPart_context hc.layered.wellFormed d
  unfold Graph.imageIn
  rw [List.mem_map]
  constructor
  · rintro ⟨n, hn, rfl⟩
    obtain ⟨hmem, hdomain⟩ := List.mem_filter.mp hn
    have hcontext := Graph.context_contains hmem (Or.inl (eq_of_beq hdomain))
    obtain ⟨n', hn', hid, -⟩ := hpart.wellFormed.exists_find? hcontext
    obtain rfl := hc.layered.wellFormed.eq_of_id_eq (hpart.mem n' hn') hmem hid
    rcases hc.exists_node_iff.mp ⟨n', hn', rfl, rfl, eq_of_beq hdomain⟩ with ⟨hk, -⟩ | ⟨hk, -⟩
    · exact Or.inl (congrArg β hk)
    · exact Or.inr (congrArg β hk)
  · rintro (rfl | rfl)
    · obtain ⟨n, hn, hid, -, hdomain⟩ := hc.exists_node_iff.mpr (Or.inl ⟨rfl, rfl⟩)
      exact ⟨n, List.mem_filter.mpr ⟨hpart.mem n hn, by simp [hdomain]⟩, congrArg β hid⟩
    · obtain ⟨n, hn, hid, -, hdomain⟩ := hc.exists_node_iff.mpr (Or.inr ⟨rfl, rfl⟩)
      exact ⟨n, List.mem_filter.mpr ⟨hpart.mem n hn, by simp [hdomain]⟩, congrArg β hid⟩

lemma toFinset_imageIn : (r.graph.imageIn d β).toFinset = {β d.tailId, β d.headId} := by
  ext id
  rw [List.mem_toFinset, hc.mem_imageIn_iff, Finset.mem_insert, Finset.mem_singleton]

/-- The rule creates no links of the types of the axioms. -/
lemma linkKind_not_mem : a.linkKind ∉ r.graph.createdLinkKinds ∧
    b.linkKind ∉ r.graph.createdLinkKinds := by
  have hfresh : ∀ n ∈ (r.graph.context d).nodes, n.domain = .correspondence →
      n.kind ∉ r.graph.createdLinkKinds := by
    intro n hn hdomain hk
    obtain ⟨t, ht, htd, htk, -⟩ := hc.layered.links.2 _ hk
    exact hc.layered.nodes t ht n hn htk (htd.trans hdomain.symm)
  obtain ⟨n, hn, -, hkind, hdomain⟩ := hc.exists_node_iff.mpr
    (Or.inl (And.intro (rfl : Domain.correspondence.tailId = _) rfl))
  obtain ⟨m, hm, -, hkind', hdomain'⟩ := hc.exists_node_iff.mpr
    (Or.inr (And.intro (rfl : Domain.correspondence.headId = _) rfl))
  have hn' := hfresh n hn hdomain
  have hm' := hfresh m hm hdomain'
  rw [hkind] at hn'
  rw [hkind'] at hm'
  exact ⟨hn', hm'⟩

end

/-! ### Where the context is found -/

/-- The ids of two traces, for the tail and for the head of an edge. -/
def spots (t u : Trace) (d : Domain) (k : NodeId) : NodeId :=
  if k = Domain.source.tailId then t.spot d .source
  else if k = Domain.target.tailId then t.spot d .target
  else if k = Domain.correspondence.tailId then t.spot d .correspondence
  else if k = Domain.source.headId then u.spot d .source
  else if k = Domain.target.headId then u.spot d .target
  else u.spot d .correspondence

lemma spots_tailId (t u : Trace) (d x : Domain) : spots t u d x.tailId = t.spot d x := by
  cases x <;> rfl

lemma spots_headId (t u : Trace) (d x : Domain) : spots t u d x.headId = u.spot d x := by
  cases x <;> rfl

section

variable {host g : Graph} {ids s : IdSupply} {ts : List Trace} {t u : Trace} {c : Pairing}
  {l : Domain → NodeId}

variable (hc : r.Connects a b d) (hd : d ≠ .correspondence) (hhost : host.WellFormed)
  (hplain : ∀ n ∈ host.nodes, n.domain = d) (hapart : ∀ x, a.kindIn x ≠ b.kindIn x)
  (h : Traces [a, b] d host ids ts g s)
include hd h

include hhost hplain in
lemma exists_trace_of_places
    (hlinks : ([a, b].map (·.linkKind)).Nodup) (hβ : g.Places r.graph d β) (hmem : c ∈ [a, b])
    (hnodes : ∀ x, ∃ n ∈ (r.graph.context d).nodes,
      n.id = l x ∧ n.kind = c.kindIn x ∧ n.domain = x)
    (hedges : ∀ x, x ≠ .correspondence →
      ∃ e ∈ r.graph.contextEdges d, e.tail = l .correspondence ∧ e.head = l x) :
    ∃ t ∈ ts, t.rule = c ∧ ∀ x, β (l x) = t.spot d x := by
  have hspot : ∀ x, ∃ m ∈ g.nodes, m.id = β (l x) ∧ m.kind = c.kindIn x ∧ m.domain = x := by
    intro x
    obtain ⟨n, hn, hid, hkind, hdomain⟩ := hnodes x
    obtain ⟨m, hm, hmid, hmkind, hmdomain⟩ := hβ.label n hn
    exact ⟨m, hm, by rw [hmid, hid], hmkind.trans hkind, hmdomain.trans hdomain⟩
  obtain ⟨m, hm, hid, hkind, hdomain⟩ := hspot .correspondence
  refine h.exists_trace_of_link (l := fun x => β (l x)) hhost hd hplain hlinks hmem hm hdomain hkind
    hid fun x hx => ?_
  obtain ⟨e, he, ht, hh⟩ := hedges x hx
  obtain ⟨e', he', ht', hh'⟩ := hβ.edge e he
  obtain ⟨m', hm', hid', -, hdomain'⟩ := hspot x
  refine ⟨e', he', by rw [ht', ht, hid], by rw [hh', hh], ?_⟩
  rw [← hid', h.wellFormed.domainOf?_of_mem hm', hdomain']

include hc hapart

include hhost hplain in
/-- The context is found at two traces whose nodes an edge of the host joins. -/
lemma exists_traces_of_places (hβ : g.Places r.graph d β) :
    ∃ t ∈ ts, ∃ u ∈ ts, t.rule = a ∧ u.rule = b ∧ (∀ x : Domain, β x.tailId = t.spot d x) ∧
      (∀ x : Domain, β x.headId = u.spot d x) ∧ (t.node, u.node) ∈ host.adjacentPairs := by
  have hlinks : ([a, b].map (·.linkKind)).Nodup := by
    simpa using show a.linkKind ≠ b.linkKind from hapart .correspondence
  obtain ⟨t, ht, hta, htail⟩ := exists_trace_of_places hd hhost hplain h hlinks hβ
    List.mem_cons_self (fun x => hc.exists_node_iff.mpr (Or.inl ⟨rfl, rfl⟩))
    (fun x hx => hc.exists_edge_iff.mpr (Or.inr ⟨x, hx, Or.inl ⟨rfl, rfl⟩⟩))
  obtain ⟨u, hu, hub, hhead⟩ := exists_trace_of_places hd hhost hplain h hlinks hβ
    (List.mem_cons_of_mem _ List.mem_cons_self)
    (fun x => hc.exists_node_iff.mpr (Or.inr ⟨rfl, rfl⟩))
    (fun x hx => hc.exists_edge_iff.mpr (Or.inr ⟨x, hx, Or.inr ⟨rfl, rfl⟩⟩))
  refine ⟨t, ht, u, hu, hta, hub, htail, hhead, Graph.mem_adjacentPairs_iff.mpr ?_⟩
  obtain ⟨e, he, het, heh⟩ := hc.exists_edge_iff.mpr (Or.inl ⟨rfl, rfl⟩)
  obtain ⟨e', he', ht', hh'⟩ := hβ.edge e he
  rw [het, htail, t.spot_self hd] at ht'
  rw [heh, hhead, u.spot_self hd] at hh'
  obtain ⟨-, n, hn, hid, -⟩ := h.reads t ht
  exact ⟨e', h.mem_edges_of_tail hn he' (ht'.trans hid.symm), ht', hh'⟩

/-- At any such traces the context is found. -/
lemma places_spots (ht : t ∈ ts) (hu : u ∈ ts) (hta : t.rule = a) (hub : u.rule = b)
    (hadjacent : (t.node, u.node) ∈ host.adjacentPairs) : g.Places r.graph d (spots t u d) := by
  have hlabel : ∀ n ∈ (r.graph.context d).nodes, ∃ m ∈ g.nodes,
      m.id = spots t u d n.id ∧ m.kind = n.kind ∧ m.domain = n.domain := by
    intro n hn
    rcases hc.exists_node_iff.mp ⟨n, hn, rfl, rfl, rfl⟩ with ⟨hid, hkind⟩ | ⟨hid, hkind⟩
    · rw [hid, hkind, spots_tailId, ← hta]
      exact h.exists_spot hd ht n.domain
    · rw [hid, hkind, spots_headId, ← hub]
      exact h.exists_spot hd hu n.domain
  refine ⟨hlabel, fun n hn m hm hsame => ?_, fun e he => ?_⟩
  · -- the six nodes of the context differ in their labels
    obtain ⟨n', hn', hnid, hnkind, hndomain⟩ := hlabel n hn
    obtain ⟨m', hm', hmid, hmkind, hmdomain⟩ := hlabel m hm
    obtain rfl := h.wellFormed.eq_of_id_eq hn' hm' (by rw [hnid, hmid, hsame])
    have hkind := hnkind.symm.trans hmkind
    have hdomain := hndomain.symm.trans hmdomain
    rcases hc.exists_node_iff.mp ⟨n, hn, rfl, rfl, rfl⟩ with ⟨hnt, hna⟩ | ⟨hnt, hnb⟩ <;>
      rcases hc.exists_node_iff.mp ⟨m, hm, rfl, rfl, rfl⟩ with ⟨hmt, hma⟩ | ⟨hmt, hmb⟩
    · rw [hnt, hmt, hdomain]
    · rw [hna, hmb, hdomain] at hkind
      exact absurd hkind (hapart _)
    · rw [hnb, hma, hdomain] at hkind
      exact absurd hkind.symm (hapart _)
    · rw [hnt, hmt, hdomain]
  · rcases hc.exists_edge_iff.mp ⟨e, he, rfl, rfl⟩ with
      ⟨het, heh⟩ | ⟨x, hx, ⟨het, heh⟩ | ⟨het, heh⟩⟩
    · rw [het, heh, spots_tailId, spots_headId, t.spot_self hd, u.spot_self hd]
      obtain ⟨e', he', hends⟩ := Graph.mem_adjacentPairs_iff.mp hadjacent
      exact ⟨e', h.mem_edges_iff.mpr (Or.inl he'), hends⟩
    · rw [het, heh, spots_tailId, spots_tailId, t.spot_eq_endIn hx]
      exact ⟨t.edge d x, h.edge_mem ht hx, rfl, rfl⟩
    · rw [het, heh, spots_headId, spots_headId, u.spot_eq_endIn hx]
      exact ⟨u.edge d x, h.edge_mem hu hx, rfl, rfl⟩

include hhost hplain in
lemma mem_adjacentPairs_of_places (hβ : g.Places r.graph d β) :
    (β d.tailId, β d.headId) ∈ host.adjacentPairs := by
  obtain ⟨t, -, u, -, -, -, htail, hhead, hadjacent⟩ :=
    hc.exists_traces_of_places hd hhost hplain hapart h hβ
  rwa [htail, hhead, t.spot_self hd, u.spot_self hd]

omit hd hapart h in
/-- The nodes that are read tell the pairs apart. -/
lemma nodup_pairs {βs : List (NodeId → NodeId)}
    (hnodup : (βs.map fun β => (r.graph.imageIn d β).toFinset).Nodup) :
    (βs.map fun β => (β d.tailId, β d.headId)).Nodup := by
  refine List.Nodup.of_map (fun p : NodeId × NodeId => ({p.1, p.2} : Finset NodeId)) ?_
  rw [List.map_map]
  simpa only [hc.toFinset_imageIn, Function.comp_def] using hnodup

include hhost hplain in
lemma placesAtMost : g.PlacesAtMost r.graph d host.adjacentPairs.length := by
  intro βs hnodup hplaces
  have hsub : (βs.map fun β => (β d.tailId, β d.headId)) ⊆ host.adjacentPairs := by
    intro p hp
    obtain ⟨β, hβ, rfl⟩ := List.mem_map.mp hp
    exact hc.mem_adjacentPairs_of_places hd hhost hplain hapart h (hplaces β hβ)
  have hle := (List.subperm_of_subset (hc.nodup_pairs hnodup) hsub).length_le
  rwa [List.length_map] at hle

end

end Connects

end Rule

/-! ### Runs -/

/-- What a run of two axioms and a rule leaves: a trace for each node of the host, and an imprint of
the rule for each pair of adjacent nodes. -/
structure Connected (r : Rule) (a b : Pairing) (d : Domain) (host : Graph) (ids : IdSupply)
    (ts : List Trace) (g : Graph) (s : IdSupply) (βs : List (NodeId → NodeId)) (h : Graph)
    (s' : IdSupply) : Prop where
  connects : r.Connects a b d
  reads : d ≠ .correspondence
  apart : ∀ x, a.kindIn x ≠ b.kindIn x
  wellFormed : host.WellFormed
  bipartite : host.Bipartite (a.kindIn d) (b.kindIn d) d
  traces : Traces [a, b] d host ids ts g s
  imprints : Imprints r d g s βs h s'
  exists_trace : ∀ c ∈ [a, b], ∀ n ∈ host.nodes, n.kind = c.kindIn d →
    ∃ t ∈ ts, t.rule = c ∧ t.node = n.id
  exists_traces : ∀ β ∈ βs, ∃ t ∈ ts, ∃ u ∈ ts, t.rule = a ∧ u.rule = b ∧
    (∀ x : Domain, β x.tailId = t.spot d x) ∧ ∀ x : Domain, β x.headId = u.spot d x
  pairs : (βs.map fun β => (β d.tailId, β d.headId)).Perm host.adjacentPairs

namespace Rule.Connects

variable {r : Rule} {a b : Pairing} {d : Domain} {host g : Graph} {ids s : IdSupply}
  {ts : List Trace} {βs : List (NodeId → NodeId)}

variable (hc : r.Connects a b d) (hd : d ≠ .correspondence) (hhost : host.WellFormed)
  (hbipartite : host.Bipartite (a.kindIn d) (b.kindIn d) d)
  (hapart : ∀ x, a.kindIn x ≠ b.kindIn x)
include hc hd hhost hbipartite hapart

/-- If there is an imprint at each place, the imprints are those of the pairs of adjacent nodes. -/
lemma perm_adjacentPairs (h : Traces [a, b] d host ids ts g s)
    (htraces : ∀ c ∈ [a, b], ∀ n ∈ host.nodes, n.kind = c.kindIn d →
      ∃ t ∈ ts, t.rule = c ∧ t.node = n.id)
    (hnodup : (βs.map fun β => (r.graph.imageIn d β).toFinset).Nodup)
    (hplaces : ∀ β ∈ βs, g.Places r.graph d β)
    (hall : ∀ β, g.Places r.graph d β → ∃ β' ∈ βs,
      (r.graph.imageIn d β').toFinset = (r.graph.imageIn d β).toFinset) :
    (βs.map fun β => (β d.tailId, β d.headId)).Perm host.adjacentPairs := by
  have hplain : ∀ n ∈ host.nodes, n.domain = d := fun n hn => (hbipartite.nodes n hn).1
  have hkinds : ([a, b].map (·.kindIn d)).Nodup := by simpa using hapart d
  apply (List.perm_ext_iff_of_nodup (hc.nodup_pairs hnodup) (List.nodup_dedup _)).mpr
  rintro ⟨x, y⟩
  constructor
  · intro hmem
    obtain ⟨β, hβ, heq⟩ := List.mem_map.mp hmem
    rw [← heq]
    exact hc.mem_adjacentPairs_of_places hd hhost hplain hapart h (hplaces β hβ)
  · intro hmem
    obtain ⟨e, he, rfl, rfl⟩ := Graph.mem_adjacentPairs_iff.mp hmem
    obtain ⟨n, hn, hnid, hnkind⟩ := hbipartite.tails e he
    obtain ⟨m, hm, hmid, hmkind⟩ := hbipartite.heads e he
    obtain ⟨t, ht, hta, htn⟩ := htraces a List.mem_cons_self n hn hnkind
    obtain ⟨u, hu, hub, hum⟩ := htraces b (List.mem_cons_of_mem _ List.mem_cons_self) m hm hmkind
    rw [← hnid, ← hmid, ← htn, ← hum] at hmem ⊢
    obtain ⟨β, hβ, hsame⟩ := hall _ (hc.places_spots hd hapart h ht hu hta hub hmem)
    obtain ⟨t', ht', u', hu', hta', hub', htail, hhead, -⟩ :=
      hc.exists_traces_of_places hd hhost hplain hapart h (hplaces β hβ)
    rw [hc.toFinset_imageIn, hc.toFinset_imageIn, spots_tailId, spots_headId, htail, hhead] at hsame
    simp only [Trace.spot_self _ hd] at hsame
    -- a node that the one axiom reads is none that the other reads
    have hne : ∀ v ∈ ts, ∀ w ∈ ts, v.rule = a → w.rule = b → v.node ≠ w.node := by
      intro v hv w hw hva hwb hnode
      obtain rfl := h.node_inj hhost hkinds hv hw hnode
      exact hapart d (by rw [← hva, ← hwb])
    have htail' : t'.node = t.node := by
      have hmem' : t'.node ∈ ({t.node, u.node} : Finset NodeId) :=
        hsame ▸ Finset.mem_insert_self _ _
      rcases Finset.mem_insert.mp hmem' with heq | heq
      · exact heq
      · exact absurd (Finset.mem_singleton.mp heq) (hne t' ht' u hu hta' hub)
    have hhead' : u'.node = u.node := by
      have hmem' : u'.node ∈ ({t.node, u.node} : Finset NodeId) :=
        hsame ▸ Finset.mem_insert_of_mem (Finset.mem_singleton_self _)
      rcases Finset.mem_insert.mp hmem' with heq | heq
      · exact absurd heq.symm (hne t ht u' hu' hta hub')
      · exact Finset.mem_singleton.mp heq
    refine List.mem_map.mpr ⟨β, hβ, ?_⟩
    rw [htail, hhead, t'.spot_self hd, u'.spot_self hd, htail', hhead']

/-- The axioms fire at each node of the host and then the rule at each pair of adjacent nodes. Then
the run settles. -/
theorem exists_settles {G : Grammar} (hG : ∀ k, G.strategy k = .backtracking)
    (hrules : G.rules = [a.rule, b.rule, r])
    (hroom : ids.RoomBeyond host
      (2 * host.nodes.length + (r.newTemplates d).length * host.adjacentPairs.length)) :
    ∃ sites q ts g s βs, G.Settles d { host, ids } sites q ∧
      Connected r a b d host ids ts g s βs q.host q.ids ∧
      sites.map (·.rule) = ts.map (·.rule.rule) ++ List.replicate βs.length r := by
  have hplain : ∀ n ∈ host.nodes, n.domain = d := fun n hn => (hbipartite.nodes n hn).1
  have hkinds : ([a, b].map (·.kindIn d)).Nodup := by simpa using hapart d
  have hlinks : ([a, b].map (·.linkKind)).Nodup := by
    simpa using show a.linkKind ≠ b.linkKind from hapart .correspondence
  have hN := readsAtMost_length hhost hkinds
  obtain ⟨sites, ts, p, hleads, h, hsites, hnone⟩ :=
    Traces.exists_leads (G := { G with rules := [a, b].map (·.rule) }) hG hhost hd hN
      (hroom.mono (Nat.le_add_right _ _)) rfl
  have hlasts := hroom.lasts
  have hfew := h.length_le hN
  have hnext : p.ids.next.raw.toNat = ids.next.raw.toNat + 2 * ts.length := by
    rw [h.ids, IdSupply.toNat_next_skip, Nat.mod_eq_of_lt (by omega)]
  have hfresh : ∀ c ∈ p.host.nodes, c.domain = .correspondence →
      c.kind ∉ r.graph.createdLinkKinds := by
    intro c hmem hdomain
    obtain ⟨t, ht, rfl⟩ := h.exists_link hd hplain hmem hdomain
    change t.rule.linkKind ∉ _
    rcases List.mem_pair.mp (h.reads t ht).1 with hrule | hrule
    · rw [hrule]
      exact hc.linkKind_not_mem.1
    · rw [hrule]
      exact hc.linkKind_not_mem.2
  have hrests : ∀ βs g s, Imprints r d p.host p.ids βs g s →
      ∀ r' ∈ [a, b].map (·.rule), r'.Rests d g := by
    intro βs g s himprints r' hr'
    obtain ⟨c, hmem, rfl⟩ := List.mem_map.mp hr'
    exact Pairing.rests_of_not_reads hd himprints.wellFormed fun id hreads =>
      hnone c hmem id (himprints.reads_of_reads hc.layered h.wellFormed hreads)
  obtain ⟨sites', βs, q, hsettles, himprints, hsites', hall⟩ :=
    Imprints.exists_settles hG hc.layered h.wellFormed hfresh
      (hc.placesAtMost hd hhost hplain hapart h) ⟨h.beyond, by omega⟩ hrules hrests
      (Imprints.start h.wellFormed h.beyond)
  have htraces : ∀ c ∈ [a, b], ∀ n ∈ host.nodes, n.kind = c.kindIn d →
      ∃ t ∈ ts, t.rule = c ∧ t.node = n.id :=
    fun c hmem n hn hkind =>
      h.exists_trace_of_kind hhost hd hplain hlinks hmem (hnone c hmem) hn hkind
  refine ⟨sites ++ sites', q, ts, p.host, p.ids, βs, (hleads.append hrules).settles hsettles,
    ⟨hc, hd, hapart, hhost, hbipartite, h, himprints, htraces, fun β hβ => ?_,
      hc.perm_adjacentPairs hd hhost hbipartite hapart h htraces himprints.nodup himprints.places
        hall⟩, ?_⟩
  · obtain ⟨t, ht, u, hu, hta, hub, htail, hhead, -⟩ :=
      hc.exists_traces_of_places hd hhost hplain hapart h (himprints.places β hβ)
    exact ⟨t, ht, u, hu, hta, hub, htail, hhead⟩
  · rw [List.map_append, ← hsites, hsites']

end Rule.Connects

end TripleGrammar
