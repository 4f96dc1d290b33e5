import TripleGrammar.Proofs.Bindings
import TripleGrammar.Proofs.FixedPoints
import TripleGrammar.Proofs.Pairings
import TripleGrammar.Proofs.SettledRuns
import TripleGrammar.Proofs.Termination

/-!
# Filling a host

What a rule adds may be of no use to the rule itself: none of it can be part of a further match, and
the links that it creates join all that has been read. Then the places at which its context is found
are there from the beginning. A run fires once for each set of nodes that is read at such a place,
and the host that it leaves has an imprint of the rule for each of them and nothing else that is
new.
-/

namespace TripleGrammar

namespace Graph

/-- There are at most `N` places for the context that differ in what is read there. -/
def PlacesAtMost (host rule : Graph) (d : Domain) (N : Nat) : Prop :=
  ∀ βs : List (NodeId → NodeId), (βs.map fun β => (rule.imageIn d β).toFinset).Nodup →
    (∀ β ∈ βs, host.Places rule d β) → βs.length ≤ N

end Graph

namespace Rule

/-- What the rule adds when it is read from `d` is of no use to it: each correspondence among it is
a link that joins all that is read, no edge runs from a correspondence of the context, no node has
the label of one in the context, and no edge runs from a node with the label of one from which an
edge of the context runs. -/
structure AddsApart (r : Rule) (d : Domain) : Prop where
  hasCreation : r.hasCreation = true
  context : (r.graph.context d).nodes ≠ []
  links : r.LinksReading d
  joins : ∀ c ∈ r.newTemplates d, c.domain = .correspondence → ∀ n ∈ r.graph.nodesIn d,
    ∃ e ∈ r.newEdges d, e.tail = c.id ∧ e.head = n.id
  spares : ∀ e ∈ r.newEdges d, (r.graph.context d).contains e.tail = true →
    r.graph.domainOf? e.tail ≠ some .correspondence
  nodes : ∀ t ∈ r.newTemplates d, ∀ n ∈ (r.graph.context d).nodes,
    t.kind = n.kind → t.domain ≠ n.domain
  edges : ∀ e ∈ r.newEdges d, ∀ e' ∈ r.graph.contextEdges d, ∀ n ∈ r.graph.nodes,
    ∀ m ∈ r.graph.nodes, n.id = e.tail → m.id = e'.tail → n.kind = m.kind → n.domain ≠ m.domain

instance (r : Rule) (d : Domain) : Decidable (r.AddsApart d) :=
  decidable_of_iff (_ ∧ _ ∧ _ ∧ _ ∧ _ ∧ _ ∧ _)
    ⟨fun ⟨h₁, h₂, h₃, h₄, h₅, h₆, h₇⟩ => ⟨h₁, h₂, h₃, h₄, h₅, h₆, h₇⟩,
      fun ⟨h₁, h₂, h₃, h₄, h₅, h₆, h₇⟩ => ⟨h₁, h₂, h₃, h₄, h₅, h₆, h₇⟩⟩

/-- A well-formed rule that adds nothing of use to it. -/
structure Layered (r : Rule) (d : Domain) : Prop extends r.AddsApart d where
  wellFormed : r.graph.WellFormed

lemma Layered.not_addsNothing {r : Rule} {d : Domain} (hr : r.Layered d) : ¬r.AddsNothing d := by
  rintro ⟨hnone, -⟩
  obtain ⟨k, hk⟩ := List.exists_mem_of_ne_nil _ hr.links.1
  obtain ⟨t, ht, -⟩ := hr.links.2 k hk
  rw [hnone] at ht
  cases ht

end Rule

/-- The host has been extended by what the rule adds at `βs` and by nothing else. No two firings
have read the same nodes, and each has taken as many ids as the rule has nodes to add. -/
structure Imprints (r : Rule) (d : Domain) (host : Graph) (ids : IdSupply)
    (βs : List (NodeId → NodeId)) (g : Graph) (s : IdSupply) : Prop where
  wellFormed : g.WellFormed
  name : g.name = host.name
  nodes : g.nodes = host.nodes ++ βs.flatMap fun β => (r.newTemplates d).map (·.made β)
  edges : g.edges = host.edges ++ βs.flatMap fun β => (r.newEdges d).map (·.placed β)
  beyond : s.Beyond g
  ids : s = ids.skip ((r.newTemplates d).length * βs.length)
  places : ∀ β ∈ βs, host.Places r.graph d β
  nodup : (βs.map fun β => (r.graph.imageIn d β).toFinset).Nodup

namespace Imprints

variable {r : Rule} {d x : Domain} {host g : Graph} {ids s : IdSupply}
  {βs : List (NodeId → NodeId)} {β β' : NodeId → NodeId} {n t t' c : Node} {e e₀ : Edge}
  {k id : NodeId} {ends : List NodeId} {a : Pairing} {found : Match}

lemma start (hhost : host.WellFormed) (hbeyond : ids.Beyond host) :
    Imprints r d host ids [] host ids :=
  ⟨hhost, rfl, (List.append_nil _).symm, (List.append_nil _).symm, hbeyond, rfl,
    fun _ hβ => absurd hβ List.not_mem_nil, List.nodup_nil⟩

section

variable (h : Imprints r d host ids βs g s)
include h

lemma mem_nodes_iff : n ∈ g.nodes ↔
    n ∈ host.nodes ∨ ∃ β ∈ βs, ∃ t ∈ r.newTemplates d, t.made β = n := by
  simp only [h.nodes, List.mem_append, List.mem_flatMap, List.mem_map]

lemma mem_edges_iff : e ∈ g.edges ↔
    e ∈ host.edges ∨ ∃ β ∈ βs, ∃ e₀ ∈ r.newEdges d, e₀.placed β = e := by
  simp only [h.edges, List.mem_append, List.mem_flatMap, List.mem_map]

lemma mem_nodes (hn : n ∈ host.nodes) : n ∈ g.nodes := h.mem_nodes_iff.mpr (Or.inl hn)

lemma made_mem (hβ : β ∈ βs) (ht : t ∈ r.newTemplates d) : t.made β ∈ g.nodes :=
  h.mem_nodes_iff.mpr (Or.inr ⟨β, hβ, t, ht, rfl⟩)

lemma placed_mem (hβ : β ∈ βs) (he : e₀ ∈ r.newEdges d) : e₀.placed β ∈ g.edges :=
  h.mem_edges_iff.mpr (Or.inr ⟨β, hβ, e₀, he, rfl⟩)

lemma domainOf?_eq (hn : n ∈ host.nodes) : g.domainOf? n.id = some n.domain :=
  h.wellFormed.domainOf?_of_mem (h.mem_nodes hn)

/-! ### New ids -/

lemma nodup_ids : (host.nodes.map (·.id) ++
    βs.flatMap fun β => (r.newTemplates d).map fun t => β t.id).Nodup := by
  have hnodup := h.wellFormed.nodup
  rw [h.nodes, List.map_append, List.map_flatMap] at hnodup
  simp only [List.map_map] at hnodup
  exact hnodup

lemma ne_made (hn : n ∈ host.nodes) (hβ : β ∈ βs) (ht : t ∈ r.newTemplates d) :
    n.id ≠ β t.id :=
  (List.nodup_append.mp h.nodup_ids).2.2 _ (List.mem_map_of_mem hn) _
    (List.mem_flatMap.mpr ⟨β, hβ, List.mem_map.mpr ⟨t, ht, rfl⟩⟩)

lemma made_inj (hβ : β ∈ βs) (hβ' : β' ∈ βs) (ht : t ∈ r.newTemplates d)
    (ht' : t' ∈ r.newTemplates d) (hid : β t.id = β' t'.id) : β = β' ∧ t = t' := by
  have hnodup := (List.nodup_append.mp h.nodup_ids).2.1
  obtain rfl := eq_of_nodup_flatMap hnodup hβ hβ' (List.mem_map.mpr ⟨t, ht, rfl⟩)
    (List.mem_map.mpr ⟨t', ht', hid.symm⟩)
  exact ⟨rfl, List.inj_on_of_nodup_map ((List.nodup_flatMap.mp hnodup).1 β hβ) ht ht' hid⟩

/-! ### The nodes and edges of an imprint -/

lemma exists_node (hr : r.graph.WellFormed) (hβ : β ∈ βs) (hn : n ∈ r.graph.nodes) :
    ∃ m ∈ g.nodes, m.id = β n.id ∧ m.kind = n.kind ∧ m.domain = n.domain := by
  rcases @Rule.contains_or_mem_newTemplates r d n hn with hcontext | hnew
  · have hpart := Graph.isPart_context hr d
    obtain ⟨n', hn', hid, -⟩ := hpart.wellFormed.exists_find? hcontext
    obtain rfl := hr.eq_of_id_eq (hpart.mem n' hn') hn hid
    obtain ⟨m, hm, hlabel⟩ := (h.places β hβ).label n' hn'
    exact ⟨m, h.mem_nodes hm, hlabel⟩
  · exact ⟨n.made β, h.made_mem hβ hnew, rfl, rfl, rfl⟩

lemma domainOf?_image (hr : r.graph.WellFormed) (hβ : β ∈ βs) (hk : k ∈ r.graph.nodes.map (·.id)) :
    g.domainOf? (β k) = r.graph.domainOf? k := by
  obtain ⟨n, hn, rfl⟩ := List.mem_map.mp hk
  obtain ⟨m, hm, hid, -, hdomain⟩ := h.exists_node hr hβ hn
  rw [← hid, h.wellFormed.domainOf?_of_mem hm, hr.domainOf?_of_mem hn, hdomain]

/-- A new edge that runs from a node of the host is drawn for one that runs from the context. -/
lemma contains_tail (hr : r.graph.WellFormed) (hn : n ∈ host.nodes) (hβ : β ∈ βs)
    (he : e₀ ∈ r.newEdges d) (htail : (e₀.placed β).tail = n.id) :
    (r.graph.context d).contains e₀.tail = true := by
  obtain ⟨m, hm, hid⟩ := List.mem_map.mp (hr.tail_mem e₀ (Rule.mem_of_mem_newEdges he).1)
  rw [← hid]
  rcases @Rule.contains_or_mem_newTemplates r d m hm with hcontext | hnew
  · exact hcontext
  · refine absurd ?_ (h.ne_made hn hβ hnew)
    rw [hid]
    exact htail.symm

/-- An edge that runs from a new node belongs to the imprint of the node. -/
lemma exists_placed_of_tail (hr : r.graph.WellFormed) (hhost : host.WellFormed) (hβ : β ∈ βs)
    (ht : t ∈ r.newTemplates d) (he : e ∈ g.edges) (htail : e.tail = β t.id) :
    ∃ e₀ ∈ r.newEdges d, e₀.tail = t.id ∧ e₀.placed β = e := by
  rcases h.mem_edges_iff.mp he with hold | ⟨β', hβ', e₀, he₀, rfl⟩
  · obtain ⟨n, hn, hid⟩ := List.mem_map.mp (hhost.tail_mem e hold)
    exact absurd (hid.trans htail) (h.ne_made hn hβ ht)
  · obtain ⟨m, hm, hid⟩ := List.mem_map.mp (hr.tail_mem e₀ (Rule.mem_of_mem_newEdges he₀).1)
    change β' e₀.tail = β t.id at htail
    rw [← hid] at htail
    rcases @Rule.contains_or_mem_newTemplates r d m hm with hcontext | hnew
    · have hpart := Graph.isPart_context hr d
      obtain ⟨m', hm', hid', -⟩ := hpart.wellFormed.exists_find? hcontext
      obtain ⟨n, hn, hnid, -⟩ := (h.places β' hβ').label m' hm'
      exact absurd (by rw [hnid, hid', htail]) (h.ne_made hn hβ ht)
    · obtain ⟨rfl, rfl⟩ := h.made_inj hβ' hβ hnew ht htail
      exact ⟨e₀, he₀, hid.symm, rfl⟩

end

section

variable (h : Imprints r d host ids βs g s) (hr : r.Layered d)
include h hr

/-! ### Links -/

lemma mem_edges_of_tail (hc : c ∈ host.nodes) (hcd : c.domain = .correspondence) (he : e ∈ g.edges)
    (htail : e.tail = c.id) : e ∈ host.edges := by
  rcases h.mem_edges_iff.mp he with hold | ⟨β, hβ, e₀, he₀, rfl⟩
  · exact hold
  · have hdomain := h.domainOf?_image hr.wellFormed hβ
      (hr.wellFormed.tail_mem e₀ (Rule.mem_of_mem_newEdges he₀).1)
    change β e₀.tail = c.id at htail
    rw [htail, h.domainOf?_eq hc, hcd] at hdomain
    exact absurd hdomain.symm (hr.spares e₀ he₀ (h.contains_tail hr.wellFormed hc hβ he₀ htail))

/-- The links of the host join what they have joined before. -/
lemma joins_iff (hhost : host.WellFormed) (hc : c ∈ host.nodes) (hcd : c.domain = .correspondence) :
    g.Joins x c.id ends ↔ host.Joins x c.id ends :=
  Graph.joins_congr hhost h.wellFormed (fun _ => h.mem_nodes) fun _ ht =>
    ⟨fun he => h.mem_edges_of_tail hr hc hcd he ht, fun he => h.mem_edges_iff.mpr (Or.inl he)⟩

/-- A new link joins what has been read. -/
lemma joins_made (hhost : host.WellFormed) (hβ : β ∈ βs) (ht : t ∈ r.newTemplates d)
    (htd : t.domain = .correspondence) : g.Joins d (β t.id) (r.graph.imageIn d β) := by
  intro id
  unfold Graph.imageIn
  rw [List.mem_map]
  constructor
  · rintro ⟨e, he, htail, rfl, hdomain⟩
    obtain ⟨e₀, he₀, -, rfl⟩ :=
      h.exists_placed_of_tail hr.wellFormed hhost hβ ht he htail
    have hmem := hr.wellFormed.head_mem e₀ (Rule.mem_of_mem_newEdges he₀).1
    change g.domainOf? (β e₀.head) = some d at hdomain
    rw [h.domainOf?_image hr.wellFormed hβ hmem, hr.wellFormed.domainOf?_iff] at hdomain
    obtain ⟨n, hn, hid, hnd⟩ := hdomain
    refine ⟨n, List.mem_filter.mpr ⟨hn, by simp [hnd]⟩, ?_⟩
    rw [hid]
    rfl
  · rintro ⟨n, hn, rfl⟩
    obtain ⟨hmem, hnd⟩ := List.mem_filter.mp hn
    obtain ⟨e₀, he₀, htail, hhead⟩ := hr.joins t ht htd n hn
    refine ⟨e₀.placed β, h.placed_mem hβ he₀, congrArg β htail, congrArg β hhead, ?_⟩
    rw [h.domainOf?_image hr.wellFormed hβ (List.mem_map_of_mem hmem),
      hr.wellFormed.domainOf?_of_mem hmem, eq_of_beq hnd]

/-! ### Places -/

/-- The context is found at the same places as before. -/
lemma places_iff : g.Places r.graph d β ↔ host.Places r.graph d β := by
  have hpart := Graph.isPart_context hr.wellFormed d
  constructor
  · intro hβ
    have hlabel : ∀ n ∈ (r.graph.context d).nodes, ∃ m ∈ host.nodes,
        m.id = β n.id ∧ m.kind = n.kind ∧ m.domain = n.domain := by
      intro n hn
      obtain ⟨m, hm, hid, hkind, hdomain⟩ := hβ.label n hn
      rcases h.mem_nodes_iff.mp hm with hold | ⟨β', -, t, ht, rfl⟩
      · exact ⟨m, hold, hid, hkind, hdomain⟩
      · exact absurd hdomain (hr.nodes t ht n hn hkind)
    refine ⟨hlabel, hβ.injective, fun e he => ?_⟩
    obtain ⟨e', he', htail, hhead⟩ := hβ.edge e he
    rcases h.mem_edges_iff.mp he' with hold | ⟨β', hβ', e₀, he₀, rfl⟩
    · exact ⟨e', hold, htail, hhead⟩
    · -- a new edge runs from a node with another label
      obtain ⟨n, hn, hnid⟩ :=
        List.mem_map.mp (hr.wellFormed.tail_mem e₀ (Rule.mem_of_mem_newEdges he₀).1)
      rw [← Graph.edges_context hr.wellFormed] at he
      obtain ⟨m, hm, hmid⟩ := List.mem_map.mp (hpart.wellFormed.tail_mem e he)
      obtain ⟨n', hn', hnid', hkind, hdomain⟩ := h.exists_node hr.wellFormed hβ' hn
      obtain ⟨m', hm', hmid', hkind', hdomain'⟩ := hlabel m hm
      have hsame : n' = m' := by
        apply h.wellFormed.eq_of_id_eq hn' (h.mem_nodes hm')
        rw [hnid', hmid', hnid, hmid]
        exact htail
      subst hsame
      rw [Graph.edges_context hr.wellFormed] at he
      exact absurd (hdomain.symm.trans hdomain') (hr.edges e₀ he₀ e he n hn m (hpart.mem m hm)
        hnid hmid (hkind.symm.trans hkind'))
  · intro hβ
    refine ⟨fun n hn => ?_, hβ.injective, fun e he => ?_⟩
    · obtain ⟨m, hm, hlabel⟩ := hβ.label n hn
      exact ⟨m, h.mem_nodes hm, hlabel⟩
    · obtain ⟨e', he', hends⟩ := hβ.edge e he
      exact ⟨e', h.mem_edges_iff.mpr (Or.inl he'), hends⟩

/-- What an axiom can read, it could read before. -/
lemma reads_of_reads (hhost : host.WellFormed) (hreads : a.Reads d g id) : a.Reads d host id := by
  obtain ⟨n, hn, rfl, hdomain, hkind, hnew⟩ := hreads
  rcases h.mem_nodes_iff.mp hn with hold | ⟨β, -, t, ht, rfl⟩
  · refine ⟨n, hold, rfl, hdomain, hkind, fun hlink => hnew ?_⟩
    obtain ⟨c, hc, hcd, hck, hjoins⟩ := hlink
    exact ⟨c, h.mem_nodes hc, hcd, hck, (h.joins_iff hr hhost hc hcd).mpr hjoins⟩
  · exact absurd (show t.domain = d from hdomain) (Rule.domain_ne_of_mem_newTemplates ht)

/-! ### Firings -/

/-- At a place where nodes are read that have been read before the links are there already. -/
lemma repeatsLinks_of_mem (hhost : host.WellFormed) (hβ : β ∈ βs) {l : List NodeId}
    (hl : ∀ id, id ∈ l ↔ id ∈ r.graph.imageIn d β) :
    Graph.repeatsLinks (g.links d) r.graph.createdLinkKinds l = true := by
  rw [Graph.repeatsLinks_congr _ hl, Graph.repeatsLinks_iff h.wellFormed]
  refine ⟨hr.links.1, fun k hk => ?_⟩
  obtain ⟨t, ht, htd, htk, -⟩ := hr.links.2 k hk
  exact ⟨t.made β, h.made_mem hβ ht, htd, htk, h.joins_made hr hhost hβ ht htd⟩

/-- A match that does not repeat links is at a place where other nodes are read than before. -/
lemma nodup_concat (hhost : host.WellFormed) (hfits : g.Fits r.graph d found)
    (hnew : Graph.repeatsLinks (g.links d) r.graph.createdLinkKinds (g.boundIn d found) = false)
    (hβ : ∀ k id, found.get? k = some id → β k = id) :
    ((βs ++ [β]).map fun β => (r.graph.imageIn d β).toFinset).Nodup := by
  rw [List.map_append, List.map_singleton, ← List.concat_eq_append, List.nodup_concat]
  refine ⟨fun hmem => ?_, h.nodup⟩
  obtain ⟨β', hβ', hsame⟩ := List.mem_map.mp hmem
  have hrepeats := h.repeatsLinks_of_mem hr hhost hβ' (l := g.boundIn d found) fun id => by
    rw [hfits.mem_boundIn_iff_mem_imageIn h.wellFormed hr.wellFormed hβ, ← List.mem_toFinset,
      ← hsame, List.mem_toFinset]
  rw [hnew] at hrepeats
  cases hrepeats

lemma places_concat (hfits : g.Fits r.graph d found)
    (hβ : ∀ k id, found.get? k = some id → β k = id) :
    ∀ β' ∈ βs ++ [β], host.Places r.graph d β' := by
  intro β' hβ'
  rcases List.mem_append.mp hβ' with hold | hlast
  · exact h.places β' hold
  · rw [List.mem_singleton.mp hlast]
    exact (h.places_iff hr).mp (hfits.places hβ)

/-- A firing at such a match leaves an imprint. -/
lemma exists_fire (hhost : host.WellFormed) (hfits : g.Fits r.graph d found)
    (hnew : Graph.repeatsLinks (g.links d) r.graph.createdLinkKinds (g.boundIn d found) = false)
    (hroom : s.RoomBeyond g (r.newTemplates d).length) :
    ∃ f g' s' β, r.fire found d g s = (.ok f, g', s') ∧ f.isEmpty = false ∧
      Imprints r d host ids (βs ++ [β]) g' s' := by
  obtain ⟨nodes, edges, bound, hfire, -, hadds, hbeyond⟩ :=
    Rule.exists_fire_of_beyond hr.wellFormed h.wellFormed hfits hroom
  let β : NodeId → NodeId := fun k => (bound.get? k).getD k
  have hβ : ∀ k id, bound.get? k = some id → β k = id := fun k id hk => by simp only [β, hk]; rfl
  have hfound : ∀ k id, found.get? k = some id → β k = id :=
    fun k id hk => hβ k id (hadds.keeps k id hk)
  refine ⟨_, _, _, β, hfire, Bool.eq_false_iff.mpr (mt hadds.isEmpty_iff.mp hr.not_addsNothing),
    hadds.wellFormed h.wellFormed, Graph.name_extend.trans h.name, ?_, ?_, hbeyond, ?_,
    h.places_concat hr hfits hfound, h.nodup_concat hr hhost hfits hnew hfound⟩
  · rw [Graph.nodes_extend, h.nodes, Rule.map_made_of_instances hβ hadds.instances,
      List.flatMap_append, List.flatMap_singleton, List.append_assoc]
  · rw [hadds.edges_extend, h.edges, Rule.map_placed_of_placeEdge hβ hadds.placed,
      List.flatMap_append, List.flatMap_singleton, List.append_assoc]
  · rw [h.ids, IdSupply.skip_skip, List.length_append, List.length_singleton, Nat.mul_add,
      Nat.mul_one]

/-- If no match is found any more, there is an imprint at each place at which the context is found,
unless the host had links of the created types to begin with. -/
lemma exists_of_isEmpty (hhost : host.WellFormed)
    (hnone : ∀ c ∈ host.nodes, c.domain = .correspondence → c.kind ∉ r.graph.createdLinkKinds)
    (hempty : (g.findMatch r.graph d).isEmpty = true) (hβ : host.Places r.graph d β) :
    ∃ β' ∈ βs, (r.graph.imageIn d β').toFinset = (r.graph.imageIn d β).toFinset := by
  obtain ⟨k, hk⟩ := List.exists_mem_of_ne_nil _ hr.links.1
  obtain ⟨n, hn, hnd, hna, hnk⟩ := Graph.mem_createdLinkKinds_iff.mp hk
  obtain ⟨c, hc, hcd, hck, hjoins⟩ := Graph.exists_link_of_places h.wellFormed hr.wellFormed
    hr.context hempty ((h.places_iff hr).mpr hβ) hn hnd hna
  rcases h.mem_nodes_iff.mp hc with hold | ⟨β', hβ', t, ht, rfl⟩
  · rw [← hnk, ← hck] at hk
    exact absurd hk (hnone c hold hcd)
  · refine ⟨β', hβ', ?_⟩
    ext id
    rw [List.mem_toFinset, List.mem_toFinset, ← h.joins_made hr hhost hβ' ht hcd id, ← hjoins id]
    rfl

end

/-! ### Runs -/

section

variable {G : Grammar} {before : List Rule} {N : Nat} {p q : Progress}

lemma length_le (h : Imprints r d host ids βs g s) (hN : host.PlacesAtMost r.graph d N) :
    βs.length ≤ N := hN βs h.nodup h.places

variable (hG : ∀ k, G.strategy k = .backtracking) (hr : r.Layered d) (hhost : host.WellFormed)
  (hnone : ∀ c ∈ host.nodes, c.domain = .correspondence → c.kind ∉ r.graph.createdLinkKinds)
  (hN : host.PlacesAtMost r.graph d N)
  (hroom : ids.RoomBeyond host ((r.newTemplates d).length * N))
include hG hr hhost hnone hN hroom

/-- The rule leaves an imprint when it is tried, or there is one at each place already. -/
lemma attempt (h : Imprints r d host ids βs p.host p.ids) :
    ((∀ β, host.Places r.graph d β → ∃ β' ∈ βs,
        (r.graph.imageIn d β').toFinset = (r.graph.imageIn d β).toFinset) ∧
        ∃ q, G.attempt d r p = .idle q ∧ q.host = p.host ∧ q.ids = p.ids) ∨
      ∃ found q β, G.attempt d r p = .fired found q ∧
        Imprints r d host ids (βs ++ [β]) q.host q.ids := by
  have hsame := Grammar.findMatch_eq_nextMatch (d := d) hG r p
  by_cases hempty : (p.host.findMatch r.graph d).isEmpty = true
  · obtain ⟨q, hq, hqhost, hqids, -⟩ := Grammar.exists_attempt_eq_idle (Or.inr (hsame ▸ hempty))
    exact Or.inl ⟨fun β => h.exists_of_isEmpty hr hhost hnone hempty, q, hq, hqhost, hqids⟩
  · rw [Bool.not_eq_true] at hempty
    obtain ⟨hfits, hnew⟩ :=
      Graph.fits_of_searchMatch Strategy.backtracking_sound h.wellFormed hr.wellFormed hempty
    change p.host.Fits r.graph d (p.host.findMatch r.graph d) at hfits
    -- the place that has been found is one more
    let β₀ : NodeId → NodeId := fun k => ((p.host.findMatch r.graph d).get? k).getD k
    have hβ₀ : ∀ k id, (p.host.findMatch r.graph d).get? k = some id → β₀ k = id :=
      fun k id hk => by simp only [β₀, hk]; rfl
    have hlt := hN _ (h.nodup_concat hr hhost hfits hnew hβ₀) (h.places_concat hr hfits hβ₀)
    rw [List.length_append, List.length_singleton] at hlt
    have hle := Nat.mul_le_mul_left (r.newTemplates d).length hlt
    rw [Nat.mul_add, Nat.mul_one] at hle
    have hlasts := hroom.lasts
    have hnext : p.ids.next.raw.toNat =
        ids.next.raw.toNat + (r.newTemplates d).length * βs.length := by
      rw [h.ids, IdSupply.toNat_next_skip, Nat.mod_eq_of_lt (by omega)]
    obtain ⟨f, g', s', β, hfire, hf, hnext⟩ := h.exists_fire hr hhost hfits hnew ⟨h.beyond, by omega⟩
    obtain ⟨q, hq, hqhost, hqids, -⟩ :=
      Grammar.exists_attempt_of_fire_ok hr.hasCreation (hsame ▸ hempty) (hsame ▸ hfire)
    rw [hf] at hq
    rw [← hqhost, ← hqids] at hnext
    exact Or.inr ⟨_, q, β, hq, hnext⟩

variable (hrules : G.rules = before ++ [r])
  (hrests : ∀ βs g s, Imprints r d host ids βs g s → ∀ r' ∈ before, r'.Rests d g)
include hrules hrests

/-- If the rules before it rest, it depends on the last rule how a pass ends. -/
lemma pass (h : Imprints r d host ids βs p.host p.ids) :
    ((∀ β, host.Places r.graph d β → ∃ β' ∈ βs,
        (r.graph.imageIn d β').toFinset = (r.graph.imageIn d β).toFinset) ∧
        ∃ q, G.pass d G.rules p = .ended .settled q ∧ q.host = p.host ∧ q.ids = p.ids) ∨
      ∃ found q β, G.pass d G.rules p = .fired r found q ∧
        Imprints r d host ids (βs ++ [β]) q.host q.ids := by
  obtain ⟨p', hpass, hphost, hpids, -⟩ := Grammar.pass_of_rests hG (hrests βs _ _ h)
  have hlast : G.pass d G.rules p = G.pass d [r] p' := by
    rw [hrules]
    exact Grammar.pass_append_of_settled [r] hpass
  rw [hlast]
  unfold Grammar.pass
  rw [← hphost, ← hpids] at h ⊢
  rcases h.attempt hG hr hhost hnone hN hroom with
    ⟨hall, q, hattempt, hq, hqids⟩ | ⟨found, q, β, hattempt, himprints⟩
  · rw [hattempt]
    exact Or.inl ⟨hall, q, rfl, hq, hqids⟩
  · rw [hattempt]
    exact Or.inr ⟨found, q, β, rfl, himprints⟩

/-- Each site of the run is one at which the rule has left an imprint. -/
lemma exists_of_leads (hp : Imprints r d host ids [] p.host p.ids) {sites : List Site}
    (hq : G.Leads d p sites q) :
    ∃ βs, Imprints r d host ids βs q.host q.ids ∧
      sites.map (·.rule) = List.replicate βs.length r := by
  induction hq with
  | start => exact ⟨[], hp, rfl⟩
  | @fired sites q q' r' found _ hpass ih =>
    obtain ⟨βs, h, hsites⟩ := ih
    rcases pass hG hr hhost hnone hN hroom hrules hrests (p := q.beginPass) h with
      ⟨-, q'', hended, -⟩ | ⟨found', q'', β, hfired, himprints⟩
    · cases hpass.symm.trans hended
    · cases hpass.symm.trans hfired
      refine ⟨βs ++ [β], himprints, ?_⟩
      rw [List.map_append, hsites, List.length_append, List.replicate_add]
      rfl

/-- The run settles when there is an imprint at each place. -/
theorem exists_settles (hp : Imprints r d host ids [] p.host p.ids) :
    ∃ sites βs q, G.Settles d p sites q ∧ Imprints r d host ids βs q.host q.ids ∧
      sites.map (·.rule) = List.replicate βs.length r ∧
      ∀ β, host.Places r.graph d β → ∃ β' ∈ βs,
        (r.graph.imageIn d β').toFinset = (r.graph.imageIn d β).toFinset := by
  have himprints := fun sites q => @exists_of_leads r d host ids G before N p q hG hr hhost hnone
    hN hroom hrules hrests hp sites
  have hbound : ∀ sites q, G.Leads d p sites q → sites.length ≤ N := by
    intro sites q hq
    obtain ⟨βs, h, hsites⟩ := himprints sites q hq
    have hlength := congrArg List.length hsites
    rw [List.length_map, List.length_replicate] at hlength
    exact hlength.le.trans (h.length_le hN)
  obtain ⟨sites, q, ending, q', hleads, hlast⟩ := Grammar.exists_leads_of_bounded hbound
  obtain ⟨βs, h, hsites⟩ := himprints sites q hleads
  rcases pass hG hr hhost hnone hN hroom hrules hrests (p := q.beginPass) h with
    ⟨hall, q'', hended, hq, hqids⟩ | ⟨found', q'', β, hfired, -⟩
  · change q''.host = q.host at hq
    change q''.ids = q.ids at hqids
    rw [← hq, ← hqids] at h
    exact ⟨sites, βs, q'', ⟨q, hleads, hended⟩, h, hsites, hall⟩
  · cases hlast.symm.trans hfired

end

end Imprints

end TripleGrammar
