import TripleGrammar.Proofs.CopiedFirings
import TripleGrammar.Proofs.Failures
import TripleGrammar.Proofs.FirstMatch

/-!
# Firing at a function of ids

A function from the ids of a rule to those of a host says in one where the context is found and
which ids the created nodes are given. The search finds such a function for the context unless the
links that the rule creates are there at each of them, and a firing adds the images of the created
elements under one that it continues.
-/

namespace TripleGrammar

/-- The host node that is made from a template, with the id that `β` gives it. -/
def Node.made (β : NodeId → NodeId) (t : Node) : Node :=
  { id := β t.id, kind := t.kind, domain := t.domain,
    isDefault := t.isDefault && t.isCorrespondence }

/-- The host edge that is drawn for an edge of a rule. -/
def Edge.placed (β : NodeId → NodeId) (e : Edge) : Edge :=
  { tail := β e.tail, head := β e.head, kind := e.kind }

namespace Graph

variable {host rule : Graph} {d : Domain} {β : NodeId → NodeId} {found : Match} {id : NodeId}

/-- The context read from `d` is found in the host at the ids that `β` gives: each node at a node of
its type and domain, different ones at different nodes, and edges along host edges. -/
structure Places (host rule : Graph) (d : Domain) (β : NodeId → NodeId) : Prop where
  label : ∀ n ∈ (rule.context d).nodes, ∃ m ∈ host.nodes,
    m.id = β n.id ∧ m.kind = n.kind ∧ m.domain = n.domain
  injective : ∀ n ∈ (rule.context d).nodes, ∀ m ∈ (rule.context d).nodes,
    β n.id = β m.id → n.id = m.id
  edge : ∀ e ∈ rule.contextEdges d, ∃ e' ∈ host.edges, e'.tail = β e.tail ∧ e'.head = β e.head

/-- The ids at which the nodes of the domain are found. -/
def imageIn (rule : Graph) (d : Domain) (β : NodeId → NodeId) : List NodeId :=
  (rule.nodesIn d).map fun n => β n.id

lemma Fits.places (h : host.Fits rule d found) (hβ : ∀ k id, found.get? k = some id → β k = id) :
    host.Places rule d β := by
  refine ⟨fun n hn => ?_, fun n hn m hm heq => ?_, fun e he => ?_⟩
  · obtain ⟨m, hm, hget, hlabel⟩ := h.label n hn
    exact ⟨m, hm, (hβ _ _ hget).symm, hlabel⟩
  · obtain ⟨n', -, hn', -⟩ := h.label n hn
    obtain ⟨m', -, hm', -⟩ := h.label m hm
    rw [hβ _ _ hn', hβ _ _ hm'] at heq
    exact h.injective _ _ _ hn' (heq ▸ hm')
  · obtain ⟨e', he', ht, hh⟩ := h.edge e he
    exact ⟨e', he', (hβ _ _ ht).symm, (hβ _ _ hh).symm⟩

lemma Fits.mem_boundIn_iff_mem_imageIn (h : host.Fits rule d found) (hhost : host.WellFormed)
    (hrule : rule.WellFormed) (hβ : ∀ k id, found.get? k = some id → β k = id) :
    id ∈ host.boundIn d found ↔ id ∈ rule.imageIn d β := by
  unfold imageIn
  rw [h.mem_boundIn_iff hhost hrule, List.mem_map]
  refine exists_congr fun n => and_congr_right fun hn => ?_
  obtain ⟨hmem, hdomain⟩ := List.mem_filter.mp hn
  have hcontext := context_contains hmem (Or.inl (eq_of_beq hdomain))
  obtain ⟨id', hid'⟩ := Option.isSome_iff_exists.mp ((h.contains_iff _).mpr hcontext)
  rw [hid', hβ _ _ hid', Option.some.injEq]

/-- If no match is found for a context that has nodes, then wherever the context is found there is a
link of each created type that joins its nodes in the domain. -/
lemma exists_link_of_places (hhost : host.WellFormed) (hrule : rule.WellFormed)
    (hnodes : (rule.context d).nodes ≠ []) (hempty : (host.findMatch rule d).isEmpty = true)
    (hβ : host.Places rule d β) {n : Node} (hn : n ∈ rule.nodes)
    (hdomain : n.domain = .correspondence) (hcreate : n.action = some .create) :
    ∃ c ∈ host.nodes, c.domain = .correspondence ∧ c.kind = n.kind ∧
      host.Joins d c.id (rule.imageIn d β) := by
  have hpart := isPart_context hrule d
  have hplace : ∀ i : Fin (rule.context d).nodes.length, ∃ j : Fin host.nodes.length,
      (host.nodes.get j).id = β ((rule.context d).nodes.get i).id ∧
        (host.nodes.get j).kind = ((rule.context d).nodes.get i).kind ∧
        (host.nodes.get j).domain = ((rule.context d).nodes.get i).domain := by
    intro i
    obtain ⟨m, hm, hid, hlabel⟩ := hβ.label _ (List.get_mem _ i)
    obtain ⟨j, rfl⟩ := List.get_of_mem hm
    exact ⟨j, hid, hlabel⟩
  choose f hid hkind hsame using hplace
  have hsuits : host.Suits (rule.context d) f := by
    refine ⟨fun i k hik => ?_, hkind, hsame, ?_⟩
    · apply hpart.wellFormed.get_id_inj.mp
      apply hβ.injective _ (List.get_mem _ i) _ (List.get_mem _ k)
      rw [← hid, ← hid, hik]
    · rintro i k ⟨e, he, ht, hh⟩
      rw [edges_context hrule] at he
      obtain ⟨e', he', ht', hh'⟩ := hβ.edge e he
      exact ⟨e', he', by rw [ht', ht, hid], by rw [hh', hh, hid]⟩
  obtain ⟨c, hc, hcd, hck, hjoins⟩ :=
    (repeats_of_isEmpty hhost hrule hnodes hempty hsuits).2 n hn hdomain hcreate
  refine ⟨c, hc, hcd, hck, fun id => (hjoins id).trans ?_⟩
  unfold imageIn
  rw [List.mem_map]
  constructor
  · rintro ⟨i, rfl, hi⟩
    have hmem := List.get_mem (rule.context d).nodes i
    refine ⟨_, List.mem_filter.mpr ⟨hpart.mem _ hmem, ?_⟩, (hid i).symm⟩
    rw [← hsame, hi]
    exact beq_self_eq_true d
  · rintro ⟨m, hm, rfl⟩
    obtain ⟨hmem, hmd⟩ := List.mem_filter.mp hm
    have hcontext := context_contains hmem (Or.inl (eq_of_beq hmd))
    obtain ⟨m', hm', hid', -⟩ := hpart.wellFormed.exists_find? hcontext
    obtain rfl := hrule.eq_of_id_eq (hpart.mem _ hm') hmem hid'
    obtain ⟨i, rfl⟩ := List.get_of_mem hm'
    exact ⟨i, hid i, (hsame i).trans (eq_of_beq hmd)⟩

end Graph

namespace Rule

variable {r : Rule} {d : Domain} {host : Graph} {found bound : Match} {nodes : List Node}
  {edges : List Edge} {ids : IdSupply} {β : NodeId → NodeId}

/-- With enough ids beyond the host, a rule fires at every match that fits. -/
lemma exists_fire_of_beyond (hrule : r.graph.WellFormed) (hhost : host.WellFormed)
    (hfits : host.Fits r.graph d found) (hroom : ids.RoomBeyond host (r.newTemplates d).length) :
    ∃ nodes edges bound,
      r.fire found d host ids = (.ok ⟨nodes.length, edges.length⟩, host.extend nodes edges,
        ids.skip (r.newTemplates d).length) ∧
      nodes.map (·.id) = ids.draws (r.newTemplates d).length ∧
      r.Adds d host found nodes edges bound ∧
      (ids.skip (r.newTemplates d).length).Beyond (host.extend nodes edges) := by
  have hfresh : (ids.draws (r.newTemplates d).length).find? host.contains = none := by
    rw [List.find?_eq_none]
    intro x hx
    rw [hroom.contains_eq_false hhost hx]
    exact Bool.false_ne_true
  obtain ⟨f, host', ids', hfire⟩ := (fire_of_draws hrule hhost hfits ids).2 hfresh
  obtain ⟨nodes, edges, bound, rfl, rfl, rfl, hids, hadds, -⟩ :=
    of_fire_ok hrule hhost hfits hfire
  have hlength := hadds.instances.length_eq
  rw [hlength] at hroom ⊢
  exact ⟨nodes, edges, bound, hfire, hids, hadds, hroom.extend hids⟩

lemma map_made_of_instances {templates : List Node}
    (hβ : ∀ k id, bound.get? k = some id → β k = id)
    (h : List.Forall₂ (IsInstance bound) templates nodes) : nodes = templates.map (·.made β) := by
  induction h with
  | nil => rfl
  | @cons t n ts ns hinst _ ih =>
    rw [List.map_cons, ← ih]
    congr 1
    obtain ⟨id, kind, domain, action, isDefault⟩ := n
    unfold Node.made
    rw [Node.mk.injEq]
    exact ⟨(hβ _ _ hinst.bound).symm, hinst.kind, hinst.domain, hinst.action, hinst.isDefault⟩

lemma map_placed_of_placeEdge {es : List Edge} (hβ : ∀ k id, bound.get? k = some id → β k = id)
    (h : List.Forall₂ (fun e e' => placeEdge bound e = .ok e') es edges) :
    edges = es.map (·.placed β) := by
  induction h with
  | nil => rfl
  | @cons e e' es edges hplace _ ih =>
    rw [List.map_cons, ← ih]
    congr 1
    obtain ⟨tail, head, kind, action⟩ := e'
    obtain ⟨ht, hh, hkind, haction⟩ := placeEdge_eq_ok_iff.mp hplace
    unfold Edge.placed
    rw [Edge.mk.injEq]
    exact ⟨(hβ _ _ ht).symm, (hβ _ _ hh).symm, hkind, haction⟩

end Rule

end TripleGrammar
