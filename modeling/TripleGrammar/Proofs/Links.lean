import TripleGrammar.Proofs.HostExtensions
import TripleGrammar.Proofs.Pruning

/-!
# Links that block a match

A correspondence links the nodes of a domain to which edges run from it. A rule that creates
correspondences over all the nodes it reads leaves such links behind, and they make the search pass
over every later match of the rule at the same nodes, as long as no rule draws further edges from
them into the domain.
-/

namespace TripleGrammar

lemma NodeId.sameMembers_iff {l₁ l₂ : List NodeId} :
    NodeId.sameMembers l₁ l₂ = true ↔ ∀ id, id ∈ l₁ ↔ id ∈ l₂ := by
  unfold NodeId.sameMembers
  simp only [Bool.and_eq_true, List.all_eq_true, List.contains_iff_mem]
  constructor
  · rintro ⟨h₁, h₂⟩ id
    exact ⟨h₁ id, h₂ id⟩
  · intro h
    exact ⟨fun id => (h id).mp, fun id => (h id).mpr⟩

namespace Graph

variable {g : Graph} {d : Domain} {ids ids' : List NodeId} {kinds : List String}

/-- The edges from the node `c` into the domain lead to exactly the given nodes. -/
def Joins (g : Graph) (d : Domain) (c : NodeId) (ids : List NodeId) : Prop :=
  ∀ id, (∃ e ∈ g.edges, e.tail = c ∧ e.head = id ∧ g.domainOf? id = some d) ↔ id ∈ ids

/-- It is enough to look at the edges of the graph and at the given nodes. -/
lemma joins_iff_forall_mem {c : NodeId} : g.Joins d c ids ↔
    (∀ e ∈ g.edges, e.tail = c → g.domainOf? e.head = some d → e.head ∈ ids) ∧
      ∀ id ∈ ids, ∃ e ∈ g.edges, e.tail = c ∧ e.head = id ∧ g.domainOf? id = some d := by
  constructor
  · intro h
    exact ⟨fun e he ht hd => (h e.head).mp ⟨e, he, ht, rfl, hd⟩, fun id hid => (h id).mpr hid⟩
  · rintro ⟨honly, hall⟩ id
    refine ⟨?_, hall id⟩
    rintro ⟨e, he, ht, rfl, hd⟩
    exact honly e he ht hd

instance (c : NodeId) : Decidable (g.Joins d c ids) := decidable_of_iff' _ joins_iff_forall_mem

/-- A node joins the same nodes in a larger graph if no further edges run from it there. -/
lemma joins_congr {h : Graph} (hg : g.WellFormed) (hh : h.WellFormed) (hnodes : g.nodes ⊆ h.nodes)
    {c : NodeId} (hedges : ∀ e, e.tail = c → (e ∈ h.edges ↔ e ∈ g.edges)) :
    h.Joins d c ids ↔ g.Joins d c ids := by
  have hdomain : ∀ e ∈ g.edges, h.domainOf? e.head = g.domainOf? e.head := by
    intro e he
    obtain ⟨n, hn, hid, -⟩ := hg.exists_find? (hg.contains_head he)
    rw [← hid, hg.domainOf?_of_mem hn, hh.domainOf?_of_mem (hnodes hn)]
  refine forall_congr' fun id => iff_congr (exists_congr fun e => ?_) Iff.rfl
  constructor
  · rintro ⟨he, ht, rfl, hd⟩
    have hold := (hedges e ht).mp he
    exact ⟨hold, ht, rfl, (hdomain e hold).symm.trans hd⟩
  · rintro ⟨he, ht, rfl, hd⟩
    exact ⟨(hedges e ht).mpr he, ht, rfl, (hdomain e he).trans hd⟩

lemma nodup_idsIn_successorsOf (hg : g.WellFormed) (c : NodeId) :
    (Node.idsIn d (g.successorsOf c)).Nodup := by
  unfold Node.idsIn
  rw [hg.successorsOf_eq]
  exact hg.nodup.sublist ((List.filter_sublist.trans List.filter_sublist).map _)

lemma linkedCount_of_joins (hg : g.WellFormed) {c : NodeId} (hjoins : g.Joins d c ids)
    (hids : ids.Nodup) : g.linkedCount d c = ids.length := by
  rw [← length_idsIn_successorsOf hg]
  apply List.Perm.length_eq
  rw [List.perm_ext_iff_of_nodup (nodup_idsIn_successorsOf hg c) hids]
  exact fun id => hg.mem_idsIn_successorsOf_iff.trans (hjoins id)

lemma exists_link_iff (hg : g.WellFormed) {k : String} :
    ((g.links d).any fun l => l.node.kind == k && l.joins ids) = true ↔
      ∃ c ∈ g.nodes, c.domain = .correspondence ∧ c.kind = k ∧ g.Joins d c.id ids := by
  have hjoins : ∀ c : NodeId,
      (∀ id, id ∈ Node.idsIn d (g.successorsOf c) ↔ id ∈ ids) ↔ g.Joins d c ids := by
    intro c
    unfold Joins
    simp only [hg.mem_idsIn_successorsOf_iff]
  unfold links nodesIn Link.joins
  simp only [List.any_map, List.any_eq_true, Function.comp_apply, List.mem_filter, beq_iff_eq,
    Bool.and_eq_true, NodeId.sameMembers_iff, hjoins, and_assoc]

lemma repeatsLinks_iff (hg : g.WellFormed) : repeatsLinks (g.links d) kinds ids = true ↔
    kinds ≠ [] ∧ ∀ k ∈ kinds, ∃ c ∈ g.nodes, c.domain = .correspondence ∧ c.kind = k ∧
      g.Joins d c.id ids := by
  unfold repeatsLinks
  simp only [Bool.and_eq_true, Bool.not_eq_true', List.isEmpty_eq_false_iff, List.all_eq_true,
    exists_link_iff hg]

lemma repeatsLinks_congr (links : List Link) (h : ∀ id, id ∈ ids ↔ id ∈ ids') :
    repeatsLinks links kinds ids = repeatsLinks links kinds ids' := by
  have hjoins : ∀ l : Link, l.joins ids = l.joins ids' := by
    intro l
    unfold Link.joins
    rw [Bool.eq_iff_iff, NodeId.sameMembers_iff, NodeId.sameMembers_iff]
    simp only [h]
  unfold repeatsLinks
  simp only [hjoins]

end Graph

namespace Rule

variable {r : Rule} {d : Domain} {host : Graph} {found bound : Match} {nodes : List Node}
  {edges : List Edge} {ids : List NodeId} {kinds : List String}

/-- Wherever the rule fires, read from `d`, there is nothing for it to add. -/
def AddsNothing (r : Rule) (d : Domain) : Prop := r.newTemplates d = [] ∧ r.newEdges d = []

instance : Decidable (r.AddsNothing d) := inferInstanceAs (Decidable (_ ∧ _))

/-- The rule creates correspondences, and for each type among them one outside the context from
which created edges lead to all nodes that the rule has in the domain. -/
def LinksReading (r : Rule) (d : Domain) : Prop :=
  r.graph.createdLinkKinds ≠ [] ∧
    ∀ k ∈ r.graph.createdLinkKinds, ∃ c ∈ r.newTemplates d,
      c.domain = .correspondence ∧ c.kind = k ∧
      ∀ n ∈ r.graph.nodesIn d, ∃ e ∈ r.graph.edges,
        e.hasAction .create = true ∧ e.tail = c.id ∧ e.head = n.id

instance : Decidable (r.LinksReading d) := inferInstanceAs (Decidable (_ ∧ ∀ k ∈ _, _))

/-- The rule draws no edge from a correspondence of its context into the domain. -/
def SparesLinks (r : Rule) (d : Domain) : Prop :=
  ∀ c ∈ (r.graph.context d).nodesIn .correspondence, ∀ n ∈ r.graph.nodesIn d,
    ∀ e ∈ r.graph.edges, e.hasAction .create = true → ¬(e.tail = c.id ∧ e.head = n.id)

instance : Decidable (r.SparesLinks d) := inferInstanceAs (Decidable (∀ c ∈ _, ∀ n ∈ _, _))

namespace Adds

lemma contains_context (h : r.Adds d host found nodes edges bound) {n : Node}
    (hn : n ∈ r.graph.nodes) {id : NodeId} (hid : bound.get? n.id = some id)
    (hold : host.contains id = true) : (r.graph.context d).contains n.id = true := by
  rcases @contains_or_mem_newTemplates r d n hn with hcontext | hnew
  · exact hcontext
  · obtain ⟨m, hm, hinst⟩ := exists_right_of_forall₂ h.instances hnew
    obtain rfl := Option.some.inj (hinst.bound.symm.trans hid)
    rw [h.fresh m hm] at hold
    cases hold

/-- An edge that a firing adds at a node of the host is drawn at a node of the context, which is in
the same domain. -/
lemma exists_drawn (h : r.Adds d host found nodes edges bound) (hrule : r.graph.WellFormed)
    (hhost : host.WellFormed) (hfits : host.Fits r.graph d found) {c : Node}
    (hc : c ∈ host.nodes) {e' : Edge} (he' : e' ∈ edges) (htail : e'.tail = c.id) :
    ∃ t ∈ (r.graph.context d).nodes, t.domain = c.domain ∧ ∃ e ∈ r.graph.edges,
      e.hasAction .create = true ∧ e.tail = t.id ∧
      (host.extend nodes edges).domainOf? e'.head = r.graph.domainOf? e.head := by
  obtain ⟨e, he, hplace⟩ := exists_left_of_forall₂ h.placed he'
  obtain ⟨hmem, hcreate, -⟩ := mem_of_mem_newEdges he
  obtain ⟨ht, hh, -, -⟩ := placeEdge_eq_ok_iff.mp hplace
  obtain ⟨t, htn, htid⟩ := List.mem_map.mp (hrule.tail_mem e hmem)
  rw [htail, ← htid] at ht
  -- the tail is part of the context, since the host has its image from before
  have hold := hhost.contains_of_mem hc
  have htd := h.domainOf?_eq hrule hhost hfits (List.mem_map_of_mem htn) ht
  rw [(h.extends hrule hhost hfits).domainOf?_eq hhost (h.wellFormed hhost) hold,
    hhost.domainOf?_of_mem hc, hrule.domainOf?_of_mem htn] at htd
  have hpart := Graph.isPart_context hrule d
  obtain ⟨t', ht', ht'id, -⟩ := hpart.wellFormed.exists_find? (h.contains_context htn ht hold)
  obtain rfl := hrule.eq_of_id_eq (hpart.mem t' ht') htn ht'id
  exact ⟨t', ht', (Option.some.inj htd).symm, e, hmem, hcreate, htid.symm,
    h.domainOf?_eq hrule hhost hfits (hrule.head_mem e hmem) hh⟩

/-- A rule that spares the links of its context adds no edge from a correspondence of the host into
the domain. -/
lemma domainOf?_head_ne (h : r.Adds d host found nodes edges bound) (hrule : r.graph.WellFormed)
    (hhost : host.WellFormed) (hfits : host.Fits r.graph d found) (hspares : r.SparesLinks d)
    {c : Node} (hc : c ∈ host.nodes) (hcd : c.domain = .correspondence) {e' : Edge}
    (he' : e' ∈ edges) (htail : e'.tail = c.id) :
    (host.extend nodes edges).domainOf? e'.head ≠ some d := by
  intro hd
  obtain ⟨t, ht, htd, e, hmem, hcreate, het, hhead⟩ :=
    h.exists_drawn hrule hhost hfits hc he' htail
  rw [hhead] at hd
  obtain ⟨n, hn, hnid, hnd⟩ := hrule.domainOf?_iff.mp hd
  apply hspares t _ n _ e hmem hcreate ⟨het, hnid.symm⟩
  · exact List.mem_filter.mpr ⟨ht, by simp [htd, hcd]⟩
  · exact List.mem_filter.mpr ⟨hn, by simp [hnd]⟩

/-- A node of the host joins the same nodes of a domain as before, if no edge from it into that
domain is added. -/
lemma joins_extend_of_head_ne (h : r.Adds d host found nodes edges bound)
    (hrule : r.graph.WellFormed) (hhost : host.WellFormed) (hfits : host.Fits r.graph d found)
    {x : Domain} {c : NodeId} (hspared : ∀ e' ∈ edges, e'.tail = c →
      (host.extend nodes edges).domainOf? e'.head ≠ some x)
    (hjoins : host.Joins x c ids) : (host.extend nodes edges).Joins x c ids := by
  have hext := h.extends hrule hhost hfits
  have hwf := h.wellFormed hhost
  intro id
  rw [← hjoins id]
  constructor
  · rintro ⟨e, he, ht, rfl, hd⟩
    rw [h.edges_extend] at he
    rcases List.mem_append.mp he with hold | hnew
    · rw [hext.domainOf?_eq hhost hwf (hhost.contains_head hold)] at hd
      exact ⟨e, hold, ht, rfl, hd⟩
    · exact absurd hd (hspared e hnew ht)
  · rintro ⟨e, he, ht, rfl, hd⟩
    refine ⟨e, hext.mem_edges he, ht, rfl, ?_⟩
    rw [hext.domainOf?_eq hhost hwf (hhost.contains_head he)]
    exact hd

lemma joins_extend (h : r.Adds d host found nodes edges bound) (hrule : r.graph.WellFormed)
    (hhost : host.WellFormed) (hfits : host.Fits r.graph d found) (hspares : r.SparesLinks d)
    {c : Node} (hc : c ∈ host.nodes) (hcd : c.domain = .correspondence)
    (hjoins : host.Joins d c.id ids) : (host.extend nodes edges).Joins d c.id ids :=
  h.joins_extend_of_head_ne hrule hhost hfits
    (fun _ he' ht => h.domainOf?_head_ne hrule hhost hfits hspares hc hcd he' ht) hjoins

/-- A correspondence from which the rule draws edges to all its nodes in the domain joins exactly
the nodes that the match has found for these. -/
lemma joins_instance (h : r.Adds d host found nodes edges bound) (hrule : r.graph.WellFormed)
    (hhost : host.WellFormed) (hfits : host.Fits r.graph d found) {c m : Node}
    (hc : c ∈ r.newTemplates d) (hm : m ∈ nodes) (hinst : IsInstance bound c m)
    (hlinks : ∀ n ∈ r.graph.nodesIn d, ∃ e ∈ r.graph.edges,
      e.hasAction .create = true ∧ e.tail = c.id ∧ e.head = n.id) :
    (host.extend nodes edges).Joins d m.id (host.boundIn d found) := by
  intro id
  rw [hfits.mem_boundIn_iff hhost hrule]
  constructor
  · rintro ⟨e', he', ht, rfl, hd⟩
    rw [h.edges_extend] at he'
    rcases List.mem_append.mp he' with hold | hnew
    · have htail := hhost.contains_tail hold
      rw [ht, h.fresh m hm] at htail
      cases htail
    · obtain ⟨e, he, hplace⟩ := exists_left_of_forall₂ h.placed hnew
      obtain ⟨hmem, -, -⟩ := mem_of_mem_newEdges he
      obtain ⟨-, hhead, -, -⟩ := placeEdge_eq_ok_iff.mp hplace
      rw [h.domainOf?_eq hrule hhost hfits (hrule.head_mem e hmem) hhead] at hd
      obtain ⟨n, hn, hnid, hnd⟩ := hrule.domainOf?_iff.mp hd
      rw [← hnid] at hhead
      have hcontext := Graph.context_contains hn (Or.inl hnd)
      obtain ⟨id, hid⟩ := Option.isSome_iff_exists.mp ((hfits.contains_iff _).mpr hcontext)
      obtain rfl := Option.some.inj ((h.keeps _ _ hid).symm.trans hhead)
      exact ⟨n, List.mem_filter.mpr ⟨hn, by simp [hnd]⟩, hid⟩
  · rintro ⟨n, hn, hid⟩
    obtain ⟨hnmem, hnd⟩ := List.mem_filter.mp hn
    obtain ⟨e, he, hcreate, ht, hh⟩ := hlinks n hn
    have hcmem := mem_of_mem_newTemplates hc
    have houtside : r.graph.edgeInside d e = false := by
      unfold Graph.edgeInside
      rw [ht, hrule.domainOf?_of_mem hcmem]
      simp [domain_ne_of_mem_newTemplates hc]
    obtain ⟨e', he', hplace⟩ :=
      exists_right_of_forall₂ h.placed (mem_newEdges he hcreate houtside)
    obtain ⟨htail, hhead, -, -⟩ := placeEdge_eq_ok_iff.mp hplace
    rw [ht] at htail
    rw [hh] at hhead
    have hid' := h.keeps _ _ hid
    refine ⟨e', ?_, ?_, ?_, ?_⟩
    · rw [h.edges_extend]
      exact List.mem_append_right _ he'
    · exact Option.some.inj (htail.symm.trans hinst.bound)
    · exact Option.some.inj (hhead.symm.trans hid')
    · rw [h.domainOf?_eq hrule hhost hfits (List.mem_map_of_mem hnmem) hid',
        hrule.domainOf?_of_mem hnmem, eq_of_beq hnd]

lemma repeatsLinks_extend (h : r.Adds d host found nodes edges bound) (hrule : r.graph.WellFormed)
    (hhost : host.WellFormed) (hfits : host.Fits r.graph d found) (hspares : r.SparesLinks d)
    (hrepeats : Graph.repeatsLinks (host.links d) kinds ids = true) :
    Graph.repeatsLinks ((host.extend nodes edges).links d) kinds ids = true := by
  rw [Graph.repeatsLinks_iff hhost] at hrepeats
  rw [Graph.repeatsLinks_iff (h.wellFormed hhost)]
  refine ⟨hrepeats.1, fun k hk => ?_⟩
  obtain ⟨c, hc, hcd, hck, hjoins⟩ := hrepeats.2 k hk
  exact ⟨c, (h.extends hrule hhost hfits).mem_nodes hc, hcd, hck,
    h.joins_extend hrule hhost hfits hspares hc hcd hjoins⟩

/-- A firing that links what it reads makes any further one at these nodes a repetition. -/
lemma repeatsLinks_boundIn (h : r.Adds d host found nodes edges bound)
    (hrule : r.graph.WellFormed) (hhost : host.WellFormed) (hfits : host.Fits r.graph d found)
    (hlinks : r.LinksReading d) :
    Graph.repeatsLinks ((host.extend nodes edges).links d) r.graph.createdLinkKinds
      (host.boundIn d found) = true := by
  rw [Graph.repeatsLinks_iff (h.wellFormed hhost)]
  refine ⟨hlinks.1, fun k hk => ?_⟩
  obtain ⟨c, hc, hcd, hck, hends⟩ := hlinks.2 k hk
  obtain ⟨m, hm, hinst⟩ := exists_right_of_forall₂ h.instances hc
  refine ⟨m, ?_, hinst.domain.trans hcd, hinst.kind.trans hck,
    h.joins_instance hrule hhost hfits hc hm hinst hends⟩
  rw [Graph.nodes_extend]
  exact List.mem_append_right _ hm

end Adds

end Rule

end TripleGrammar
