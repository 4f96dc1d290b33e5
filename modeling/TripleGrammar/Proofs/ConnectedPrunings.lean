import TripleGrammar.Proofs.ConnectedHosts

/-!
# Pruning what connecting rules leave

Two axioms and a rule between paired nodes leave a host in which the new links of the rule cover
the twins of all nodes that have an edge, and what the rule creates beside them. The other twins are
seeds, and the link of such a twin is all that is reached from it.
-/

namespace TripleGrammar

namespace Graph

/-- No edge runs to or from the node. -/
def isolated (g : Graph) (id : NodeId) : Bool := g.edges.all fun e => e.tail != id && e.head != id

lemma isolated_eq_false_iff {g : Graph} {id : NodeId} :
    g.isolated id = false ↔ ∃ e ∈ g.edges, e.tail = id ∨ e.head = id := by
  unfold isolated
  rw [List.all_eq_false]
  simp [or_iff_not_imp_left]

end Graph

/-- What some elements have before it can be listed in front. -/
lemma perm_flatMap_ite {α β : Type} (p : α → Bool) (f g : α → β) (l : List α) :
    (l.flatMap fun a => if p a then [f a, g a] else [g a]).Perm
      ((l.filter p).map f ++ l.map g) := by
  induction l with
  | nil => exact .refl _
  | cons a l ih =>
    cases hp : p a with
    | true => simpa [hp] using (ih.cons _).trans List.perm_middle.symm
    | false => simpa [hp] using (ih.cons _).trans List.perm_middle.symm

lemma flatMap_ite_nil {α β : Type} (p : α → Bool) (f : α → β) (l : List α) :
    (l.flatMap fun a => if p a then [f a] else []) = (l.filter p).map f := by
  induction l with
  | nil => rfl
  | cons a l ih => cases hp : p a <;> simp [hp, ih]

/-- A test that fails for the edge to the node decides on that to the twin alone. -/
lemma Trace.filter_edges (t : Trace) {d : Domain} (hd : d ≠ .correspondence) {p : Edge → Bool}
    (hself : p (t.edge d d) = false) :
    (t.edges d).filter p = if p (t.edge d d.other) then [t.edge d d.other] else [] := by
  cases d with
  | source =>
    change [t.edge .source .source, t.edge .source .target].filter p =
      if p (t.edge .source .target) then [t.edge .source .target] else []
    rw [List.filter_cons_of_neg (by simp [hself]), List.filter_cons, List.filter_nil]
  | target =>
    change [t.edge .target .source, t.edge .target .target].filter p =
      if p (t.edge .target .source) then [t.edge .target .source] else []
    rw [List.filter_cons, List.filter_cons_of_neg (by simp [hself]), List.filter_nil]
  | correspondence => exact absurd rfl hd

namespace Rule

/-- The nodes of the domain to which edges run from the links that the rule creates. -/
def linkHeads (r : Rule) (d x : Domain) : List NodeId :=
  ((r.newEdges d).filter fun e => r.graph.domainOf? e.tail == some .correspondence &&
    r.graph.domainOf? e.head == some x).map (·.head)

lemma mem_linkHeads_iff {r : Rule} {d x : Domain} {k : NodeId} : k ∈ r.linkHeads d x ↔
    ∃ e ∈ r.newEdges d, r.graph.domainOf? e.tail = some .correspondence ∧
      r.graph.domainOf? e.head = some x ∧ e.head = k := by
  unfold linkHeads
  simp only [List.mem_map, List.mem_filter, Bool.and_eq_true, beq_iff_eq, and_assoc]

/-- Read from `d`, the rule creates no default correspondence and draws no edge to a correspondence.
Its links lead to the twins of both nodes that it reads and to all that it adds in the other domain,
and they lead nowhere else there. -/
structure Covers (r : Rule) (d : Domain) : Prop where
  flags : ∀ t ∈ r.newTemplates d, t.isDefault = false
  heads : ∀ e ∈ r.newEdges d, r.graph.domainOf? e.head ≠ some .correspondence
  tailId : d.other.tailId ∈ r.linkHeads d d.other
  headId : d.other.headId ∈ r.linkHeads d d.other
  templates : ∀ t ∈ r.newTemplates d, t.domain = d.other → t.id ∈ r.linkHeads d d.other
  linkHeads : ∀ k ∈ r.linkHeads d d.other, k = d.other.tailId ∨ k = d.other.headId ∨
    ∃ t ∈ r.newTemplates d, t.id = k
  edges : ∀ e ∈ r.newEdges d,
    (r.graph.domainOf? e.tail = some d.other → e.tail ∈ r.linkHeads d d.other) ∧
      (r.graph.domainOf? e.head = some d.other → e.head ∈ r.linkHeads d d.other)

instance (r : Rule) (d : Domain) : Decidable (r.Covers d) :=
  decidable_of_iff (_ ∧ _ ∧ _ ∧ _ ∧ _ ∧ _ ∧ _)
    ⟨fun ⟨h₁, h₂, h₃, h₄, h₅, h₆, h₇⟩ => ⟨h₁, h₂, h₃, h₄, h₅, h₆, h₇⟩,
      fun ⟨h₁, h₂, h₃, h₄, h₅, h₆, h₇⟩ => ⟨h₁, h₂, h₃, h₄, h₅, h₆, h₇⟩⟩

end Rule

namespace Connected

variable {r : Rule} {a b : Pairing} {d x : Domain} {host g f : Graph} {ids s s' : IdSupply}
  {ts : List Trace} {βs : List (NodeId → NodeId)} {β : NodeId → NodeId} {t : Trace} {c : Node}
  {id : NodeId} {e : Edge}

variable (h : Connected r a b d host ids ts g s βs f s') (hv : r.Covers d)
include h

/-! ### Twins and their links -/

section

variable {twin link : NodeId → NodeId}
  (htwins : ∀ t ∈ ts, twin t.node = t.twin ∧ link t.node = t.link)
include htwins

lemma perm_twins :
    (ts.flatMap fun t => if host.isolated t.node then t.nodes d else [t.twinNode d]).Perm
      ((host.nodes.filter fun n => host.isolated n.id).map (Pairing.linkOf a b d link) ++
        host.nodes.map (Pairing.twinOf a b d twin)) := by
  have hperm := h.perm_nodes.flatMap_right fun q => if host.isolated q.1
    then [({ id := link q.1, kind := q.2.linkKind, domain := .correspondence,
             isDefault := true } : Node),
          { id := twin q.1, kind := q.2.kindIn d.other, domain := d.other }]
    else [{ id := twin q.1, kind := q.2.kindIn d.other, domain := d.other }]
  rw [List.flatMap_map, List.flatMap_map] at hperm
  refine ((List.Perm.of_eq (List.flatMap_congr fun t ht => ?_)).trans hperm).trans
    (perm_flatMap_ite _ _ _ _)
  simp only [htwins t ht]
  rfl

lemma perm_twin_edges :
    (ts.flatMap fun t => if host.isolated t.node then [t.edge d d.other] else []).Perm
      ((host.nodes.filter fun n => host.isolated n.id).map fun n =>
        { tail := link n.id, head := twin n.id }) := by
  have hperm := h.perm_nodes.flatMap_right fun q => if host.isolated q.1
    then [({ tail := link q.1, head := twin q.1 } : Edge)] else []
  rw [List.flatMap_map, List.flatMap_map] at hperm
  rw [← flatMap_ite_nil]
  refine (List.Perm.of_eq (List.flatMap_congr fun t ht => ?_)).trans hperm
  simp only [htwins t ht, ← t.endIn_other h.reads]
  rfl

end

/-! ### What is covered -/

include hv

/-- The default correspondences pair the nodes of the host with their twins. -/
lemma linked_true_iff (hx : x ≠ .correspondence) :
    f.Linked x true id ↔ ∃ t ∈ ts, t.endIn d x = id := by
  constructor
  · rintro ⟨c, hc, hflag, e, he, htail, rfl, hdomain⟩
    obtain ⟨hc, hcd⟩ := List.mem_filter.mp hc
    rcases h.link_cases hc (eq_of_beq hcd) with ⟨t, ht, rfl⟩ | ⟨β, hβ, n, hn, -, rfl⟩
    · exact ⟨t, ht, (List.mem_singleton.mp ((h.joins_link ht hx _).mp
        ⟨e, he, htail, rfl, hdomain⟩)).symm⟩
    · simp [Node.made, hv.flags n hn] at hflag
  · rintro ⟨t, ht, rfl⟩
    obtain ⟨e, he, hends⟩ := (h.joins_link ht hx _).mpr (List.mem_singleton_self _)
    exact ⟨t.linkNode, List.mem_filter.mpr ⟨h.linkNode_mem ht, rfl⟩, rfl, e, he, hends⟩

lemma find?_unpaired : f.nodes.find? f.unpaired = none := by
  rw [List.find?_eq_none]
  intro c hc hunpaired
  simp only [Graph.unpaired, Bool.and_eq_true, beq_iff_eq] at hunpaired
  obtain ⟨⟨hcd, hflag⟩, hpairing⟩ := hunpaired
  rcases h.link_cases hc hcd with ⟨t, ht, rfl⟩ | ⟨β, hβ, n, hn, -, rfl⟩
  · have hcount : ∀ x, x ≠ .correspondence → f.linkedCount x t.link = 1 := fun x hx =>
      Graph.linkedCount_of_joins h.imprints.wellFormed (h.joins_link ht hx)
        (List.nodup_singleton _)
    change (!f.isPairing t.link) = true at hpairing
    unfold Graph.isPairing at hpairing
    rw [hcount .source (by decide), hcount .target (by decide)] at hpairing
    cases hpairing
  · simp [Node.made, hv.flags n hn] at hflag

/-- The other correspondences cover the images of the nodes to which the links of the rule lead. -/
lemma covered_iff : f.Covered x id ↔ ∃ β ∈ βs, ∃ k ∈ r.linkHeads d x, β k = id := by
  have hrule := h.connects.layered.wellFormed
  constructor
  · rintro ⟨c, hc, hflag, e, he, htail, rfl, hdomain⟩
    obtain ⟨hc, hcd⟩ := List.mem_filter.mp hc
    rcases h.link_cases hc (eq_of_beq hcd) with ⟨t, ht, rfl⟩ | ⟨β, hβ, n, hn, hnd, rfl⟩
    · cases hflag
    · obtain ⟨e₀, he₀, htail₀, rfl⟩ :=
        h.imprints.exists_placed_of_tail hrule h.traces.wellFormed hβ hn he htail
      change f.domainOf? (β e₀.head) = some x at hdomain
      rw [h.domainOf?_head hβ he₀] at hdomain
      refine ⟨β, hβ, e₀.head, Rule.mem_linkHeads_iff.mpr ⟨e₀, he₀, ?_, hdomain, rfl⟩, rfl⟩
      rw [htail₀, hrule.domainOf?_of_mem (Rule.mem_of_mem_newTemplates hn), hnd]
  · rintro ⟨β, hβ, k, hk, rfl⟩
    obtain ⟨e, he, htail, hhead, rfl⟩ := Rule.mem_linkHeads_iff.mp hk
    obtain ⟨n, hn, hid, hnd⟩ := hrule.domainOf?_iff.mp htail
    have hnew : n ∈ r.newTemplates d := by
      refine (Rule.contains_or_mem_newTemplates hn).resolve_left fun hcontext => ?_
      rw [hid] at hcontext
      exact h.connects.layered.spares e he hcontext htail
    refine ⟨n.made β, List.mem_filter.mpr ⟨h.imprints.made_mem hβ hnew, by simp [Node.made, hnd]⟩,
      by simp [Node.made, hv.flags n hnew], e.placed β, h.imprints.placed_mem hβ he,
      congrArg β hid.symm, rfl, ?_⟩
    rw [h.domainOf?_head hβ he, hhead]

/-- The twins of the nodes that have an edge are covered. -/
lemma covered_twin_iff (ht : t ∈ ts) :
    f.Covered d.other t.twin ↔ host.isolated t.node = false := by
  rw [h.covered_iff hv, Graph.isolated_eq_false_iff]
  constructor
  · rintro ⟨β, hβ, k, hk, htwin⟩
    obtain ⟨t', ht', u', hu', -, -, htail, hhead⟩ := h.exists_traces β hβ
    have hmem := h.pairs.mem_iff.mp (List.mem_map_of_mem hβ)
    obtain ⟨e, he, hends⟩ := Graph.mem_adjacentPairs_iff.mp hmem
    rw [htail, hhead, t'.spot_self h.reads, u'.spot_self h.reads] at hends
    refine ⟨e, he, ?_⟩
    rcases hv.linkHeads k hk with rfl | rfl | ⟨n, hn, rfl⟩
    · rw [htail, t'.spot_other h.reads] at htwin
      rw [← h.traces.twin_inj ht' ht htwin]
      exact Or.inl hends.1
    · rw [hhead, u'.spot_other h.reads] at htwin
      rw [← h.traces.twin_inj hu' ht htwin]
      exact Or.inr hends.2
    · exact absurd htwin.symm (h.imprints.ne_made (h.traces.twinNode_mem ht) hβ hn)
  · rintro ⟨e, he, hend⟩
    have hmem := Graph.mem_adjacentPairs_iff.mpr ⟨e, he, rfl, rfl⟩
    obtain ⟨β, hβ, heq⟩ := List.mem_map.mp (h.pairs.mem_iff.mpr hmem)
    obtain ⟨t', ht', u', hu', -, -, htail, hhead⟩ := h.exists_traces β hβ
    obtain ⟨het, heh⟩ := Prod.mk.inj heq
    rw [htail, t'.spot_self h.reads] at het
    rw [hhead, u'.spot_self h.reads] at heh
    rcases hend with hend | hend
    · obtain rfl := h.traces.node_inj h.wellFormed h.nodup_kinds ht' ht (het.trans hend)
      exact ⟨β, hβ, _, hv.tailId, (htail _).trans (t'.spot_other h.reads)⟩
    · obtain rfl := h.traces.node_inj h.wellFormed h.nodup_kinds hu' ht (heh.trans hend)
      exact ⟨β, hβ, _, hv.headId, (hhead _).trans (u'.spot_other h.reads)⟩

/-! ### What is kept -/

/-- No edge runs from a twin that is not covered. -/
lemma tail_ne_twin (ht : t ∈ ts) (hfree : ¬f.Covered d.other t.twin) (he : e ∈ f.edges) :
    e.tail ≠ t.twin := by
  intro htail
  have hdomain := h.domainOf?_twin ht
  rw [← htail] at hdomain
  rcases h.edge_cases he with hold | ⟨t', ht', x, -, rfl⟩ | ⟨β, hβ, e₀, he₀, rfl⟩
  · rw [h.domainOf?_host (h.wellFormed.tail_mem e hold)] at hdomain
    exact Domain.other_ne_self h.reads (Option.some.inj hdomain).symm
  · change f.domainOf? t'.link = _ at hdomain
    rw [h.domainOf?_link ht'] at hdomain
    exact Domain.other_ne_correspondence h.reads (Option.some.inj hdomain).symm
  · have hmem := (hv.edges e₀ he₀).1 (h.domainOf?_tail hβ he₀ ▸ hdomain)
    exact hfree ((h.covered_iff hv).mpr ⟨β, hβ, e₀.tail, hmem, htail⟩)

/-- The only edge to such a twin runs from its link. -/
lemma tail_eq_link (ht : t ∈ ts) (hfree : ¬f.Covered d.other t.twin) (he : e ∈ f.edges)
    (hhead : e.head = t.twin) : e.tail = t.link := by
  have hdomain := h.domainOf?_twin ht
  rw [← hhead] at hdomain
  rcases h.edge_cases he with hold | ⟨t', ht', x, hx, rfl⟩ | ⟨β, hβ, e₀, he₀, rfl⟩
  · rw [h.domainOf?_host (h.wellFormed.head_mem e hold)] at hdomain
    exact absurd (Option.some.inj hdomain).symm (Domain.other_ne_self h.reads)
  · have hend := (h.joins_link ht' hx _).mpr (List.mem_singleton_self _)
    obtain ⟨-, -, -, -, hx'⟩ := hend
    obtain rfl := Option.some.inj (hx'.symm.trans hdomain)
    change t'.endIn d d.other = t.twin at hhead
    rw [t'.endIn_other h.reads] at hhead
    exact congrArg Trace.link (h.traces.twin_inj ht' ht hhead)
  · have hmem := (hv.edges e₀ he₀).2 (h.domainOf?_head hβ he₀ ▸ hdomain)
    exact absurd ((h.covered_iff hv).mpr ⟨β, hβ, e₀.head, hmem, hhead⟩) hfree

/-- No edge runs to a link. -/
lemma head_ne_link (ht : t ∈ ts) (he : e ∈ f.edges) : e.head ≠ t.link := by
  intro hhead
  have hdomain := h.domainOf?_link ht
  rw [← hhead] at hdomain
  rcases h.edge_cases he with hold | ⟨t', ht', x, hx, rfl⟩ | ⟨β, hβ, e₀, he₀, rfl⟩
  · rw [h.domainOf?_host (h.wellFormed.head_mem e hold)] at hdomain
    exact h.reads (Option.some.inj hdomain)
  · obtain ⟨-, -, -, -, hx'⟩ := (h.joins_link ht' hx _).mpr (List.mem_singleton_self _)
    exact hx (Option.some.inj (hx'.symm.trans hdomain))
  · exact hv.heads e₀ he₀ (h.domainOf?_head hβ he₀ ▸ hdomain)

/-- Beside what is covered, the twins that are not and their links are kept. -/
lemma kept_iff : f.Kept d.other id ↔ f.Covered d.other id ∨
    ∃ t ∈ ts, ¬f.Covered d.other t.twin ∧ (id = t.twin ∨ id = t.link) := by
  have hother := Domain.other_ne_correspondence h.reads
  refine or_congr_right ⟨?_, ?_⟩
  · rintro ⟨_, ⟨-, hlinked, hfree⟩, hpath⟩
    obtain ⟨t, ht, rfl⟩ := (h.linked_true_iff hv hother).mp hlinked
    rw [t.endIn_other h.reads] at hfree hpath
    refine ⟨t, ht, hfree, ?_⟩
    rcases hpath with hpath | hpath
    · rcases hpath.cases_head with rfl | ⟨-, ⟨-, -, e, he, htail, -⟩, -⟩
      · exact Or.inl rfl
      · exact absurd htail (h.tail_ne_twin hv ht hfree he)
    · rcases hpath.cases_tail with rfl | ⟨_, hpath, -, -, e, he, rfl, hhead⟩
      · exact Or.inl rfl
      · rw [h.tail_eq_link hv ht hfree he hhead] at hpath
        rcases hpath.cases_tail with heq | ⟨-, -, -, -, e', he', -, hhead'⟩
        · exact Or.inr heq.symm
        · exact absurd hhead' (h.head_ne_link hv ht he')
  · rintro ⟨t, ht, hfree, hid⟩
    have hlinked := (h.linked_true_iff hv hother).mpr ⟨t, ht, t.endIn_other h.reads⟩
    refine ⟨t.twin, ⟨hother, hlinked, hfree⟩, ?_⟩
    rcases hid with rfl | rfl
    · exact Or.inl Relation.ReflTransGen.refl
    · have hlink : ¬f.Covered d.other t.link := by
        intro hcovered
        have hdomain := (Graph.Linked.domainOf?_eq hcovered).symm.trans (h.domainOf?_link ht)
        exact hother (Option.some.inj hdomain)
      obtain ⟨e, he, htail, hhead, -⟩ := (h.joins_link ht hother _).mpr (List.mem_singleton_self _)
      rw [t.endIn_other h.reads] at hhead
      exact Or.inr (Relation.ReflTransGen.single ⟨hlink, hfree, e, he, htail, hhead⟩)

lemma kept_cases (hkept : f.Kept d.other id) : f.domainOf? id = some d.other ∨
    ∃ t ∈ ts, id = t.link ∧ host.isolated t.node = true := by
  rcases (h.kept_iff hv).mp hkept with hcovered | ⟨t, ht, hfree, rfl | rfl⟩
  · exact Or.inl (Graph.Linked.domainOf?_eq hcovered)
  · exact Or.inl (h.domainOf?_twin ht)
  · rw [h.covered_twin_iff hv ht, Bool.not_eq_false] at hfree
    exact Or.inr ⟨t, ht, rfl, hfree⟩

lemma not_kept_host (hid : id ∈ host.nodes.map (·.id)) : ¬f.Kept d.other id := by
  intro hkept
  have hdomain := h.domainOf?_host hid
  rcases h.kept_cases hv hkept with hother | ⟨t, ht, rfl, -⟩
  · exact Domain.other_ne_self h.reads (Option.some.inj (hother.symm.trans hdomain))
  · exact h.reads (Option.some.inj (hdomain.symm.trans (h.domainOf?_link ht)))

lemma kept_twin (ht : t ∈ ts) : f.Kept d.other t.twin := by
  rw [h.kept_iff hv]
  by_cases hcovered : f.Covered d.other t.twin
  · exact Or.inl hcovered
  · exact Or.inr ⟨t, ht, hcovered, Or.inl rfl⟩

lemma kept_link_iff (ht : t ∈ ts) : f.Kept d.other t.link ↔ host.isolated t.node = true := by
  constructor
  · intro hkept
    rcases h.kept_cases hv hkept with hother | ⟨t', ht', hlink, hisolated⟩
    · rw [h.domainOf?_link ht] at hother
      exact absurd (Option.some.inj hother).symm (Domain.other_ne_correspondence h.reads)
    · rwa [h.traces.link_inj ht ht' hlink]
  · intro hisolated
    refine (h.kept_iff hv).mpr (Or.inr ⟨t, ht, ?_, Or.inr rfl⟩)
    rw [h.covered_twin_iff hv ht, hisolated]
    exact Bool.noConfusion

lemma kept_made_iff (hβ : β ∈ βs) (hc : c ∈ r.newTemplates d) :
    f.Kept d.other (β c.id) ↔ c.domain = d.other := by
  constructor
  · intro hkept
    rcases h.kept_cases hv hkept with hother | ⟨t, ht, hlink, -⟩
    · have hdomain := h.imprints.wellFormed.domainOf?_of_mem (h.imprints.made_mem hβ hc)
      exact Option.some.inj (hdomain.symm.trans hother)
    · exact absurd hlink.symm (h.imprints.ne_made (h.traces.linkNode_mem ht) hβ hc)
  · intro hdomain
    exact Or.inl ((h.covered_iff hv).mpr ⟨β, hβ, c.id, hv.templates c hc hdomain, rfl⟩)

lemma kept_tail_iff (hβ : β ∈ βs) (he : e ∈ r.newEdges d) :
    f.Kept d.other (β e.tail) ↔ r.graph.domainOf? e.tail = some d.other := by
  rw [← h.domainOf?_tail hβ he]
  constructor
  · intro hkept
    rcases h.kept_cases hv hkept with hother | ⟨t, ht, hlink, -⟩
    · exact hother
    · -- a new edge from a correspondence runs from one that the rule has created
      have hdomain := h.domainOf?_tail hβ he
      rw [hlink, h.domainOf?_link ht] at hdomain
      obtain ⟨n, hn, hid, -⟩ := h.connects.layered.wellFormed.domainOf?_iff.mp hdomain.symm
      rcases @Rule.contains_or_mem_newTemplates r d n hn with hcontext | hnew
      · rw [hid] at hcontext
        exact absurd hdomain.symm (h.connects.layered.spares e he hcontext)
      · rw [← hid] at hlink
        exact absurd hlink.symm (h.imprints.ne_made (h.traces.linkNode_mem ht) hβ hnew)
  · intro hdomain
    rw [h.domainOf?_tail hβ he] at hdomain
    exact Or.inl ((h.covered_iff hv).mpr ⟨β, hβ, e.tail, (hv.edges e he).1 hdomain, rfl⟩)

lemma kept_head_iff (hβ : β ∈ βs) (he : e ∈ r.newEdges d) :
    f.Kept d.other (β e.head) ↔ r.graph.domainOf? e.head = some d.other := by
  rw [← h.domainOf?_head hβ he]
  constructor
  · intro hkept
    rcases h.kept_cases hv hkept with hother | ⟨t, ht, hlink, -⟩
    · exact hother
    · have hdomain := h.domainOf?_head hβ he
      rw [hlink, h.domainOf?_link ht] at hdomain
      exact absurd hdomain.symm (hv.heads e he)
  · intro hdomain
    rw [h.domainOf?_head hβ he] at hdomain
    exact Or.inl ((h.covered_iff hv).mpr ⟨β, hβ, e.head, (hv.edges e he).2 hdomain, rfl⟩)

section

variable {keep : NodeId → Bool} (hkeep : ∀ id, keep id = true ↔ f.Kept d.other id)
include hkeep

lemma keep_host (hid : id ∈ host.nodes.map (·.id)) : keep id = false :=
  Bool.eq_false_iff.mpr fun hk => h.not_kept_host hv hid ((hkeep id).mp hk)

lemma keep_twin (ht : t ∈ ts) : keep t.twin = true := (hkeep _).mpr (h.kept_twin hv ht)

lemma keep_link (ht : t ∈ ts) : keep t.link = host.isolated t.node := by
  rw [Bool.eq_iff_iff, hkeep, h.kept_link_iff hv ht]

lemma filter_nodes : (f.nodes.filter fun n => keep n.id) =
    (ts.flatMap fun t => if host.isolated t.node then t.nodes d else [t.twinNode d]) ++
      βs.flatMap fun β => ((r.newTemplates d).filter (·.domain == d.other)).map (·.made β) := by
  have hold : host.nodes.filter (fun n => keep n.id) = [] := by
    rw [List.filter_eq_nil_iff]
    intro n hn
    rw [h.keep_host hv hkeep (List.mem_map_of_mem hn)]
    exact Bool.false_ne_true
  rw [h.imprints.nodes, h.traces.nodes, List.filter_append, List.filter_append, hold,
    List.nil_append, List.filter_flatMap, List.filter_flatMap]
  congr 1
  · apply List.flatMap_congr
    intro t ht
    unfold Trace.nodes
    simp only [List.filter_cons, List.filter_nil, if_true,
      show keep t.linkNode.id = host.isolated t.node from h.keep_link hv hkeep ht,
      show keep (t.twinNode d).id = true from h.keep_twin hv hkeep ht]
  · apply List.flatMap_congr
    intro β hβ
    rw [List.filter_map]
    congr 1
    apply List.filter_congr
    intro c hc
    rw [Bool.eq_iff_iff, beq_iff_eq]
    exact (hkeep _).trans (h.kept_made_iff hv hβ hc)

lemma filter_edges : (f.edges.filter fun e => keep e.tail && keep e.head) =
    (ts.flatMap fun t => if host.isolated t.node then [t.edge d d.other] else []) ++
      βs.flatMap fun β => ((r.newEdges d).filter (r.graph.edgeInside d.other)).map
        (·.placed β) := by
  have hold : host.edges.filter (fun e => keep e.tail && keep e.head) = [] := by
    rw [List.filter_eq_nil_iff]
    intro e he
    rw [h.keep_host hv hkeep (h.wellFormed.tail_mem e he)]
    exact Bool.false_ne_true
  rw [h.imprints.edges, h.traces.edges, List.filter_append, List.filter_append, hold,
    List.nil_append, List.filter_flatMap, List.filter_flatMap]
  congr 1
  · apply List.flatMap_congr
    intro t ht
    have hself : (keep (t.edge d d).tail && keep (t.edge d d).head) = false := by
      obtain ⟨-, n, hn, hid, -⟩ := h.traces.reads t ht
      change (keep t.link && keep (t.endIn d d)) = false
      rw [t.endIn_self, ← hid, h.keep_host hv hkeep (List.mem_map_of_mem hn), Bool.and_false]
    have hother : (keep (t.edge d d.other).tail && keep (t.edge d d.other).head) =
        host.isolated t.node := by
      change (keep t.link && keep (t.endIn d d.other)) = _
      rw [t.endIn_other h.reads, h.keep_twin hv hkeep ht, h.keep_link hv hkeep ht, Bool.and_true]
    rw [t.filter_edges h.reads hself, hother]
  · apply List.flatMap_congr
    intro β hβ
    rw [List.filter_map]
    congr 1
    apply List.filter_congr
    intro e he
    unfold Graph.edgeInside
    rw [Bool.eq_iff_iff]
    simp only [Function.comp_apply, Bool.and_eq_true, beq_iff_eq, hkeep]
    exact and_congr (h.kept_tail_iff hv hβ he) (h.kept_head_iff hv hβ he)

end

/-- Pruning keeps the twins, the links of those whose nodes have no edge, and what the rule has
created in the other domain, with the edges between these. -/
theorem exists_prune : ∃ p, f.prune d.other = .ok p ∧
    p.graph.nodes.Perm
      ((ts.flatMap fun t => if host.isolated t.node then t.nodes d else [t.twinNode d]) ++
        βs.flatMap fun β => ((r.newTemplates d).filter (·.domain == d.other)).map (·.made β)) ∧
    p.graph.edges =
      (ts.flatMap fun t => if host.isolated t.node then [t.edge d d.other] else []) ++
        βs.flatMap fun β => ((r.newEdges d).filter (r.graph.edgeInside d.other)).map
          (·.placed β) := by
  obtain ⟨p, hp, -, keep, hkeep, hnodes, hedges⟩ :=
    Graph.exists_prune h.imprints.wellFormed (d := d.other) (h.find?_unpaired hv)
  exact ⟨p, hp, hnodes.trans (.of_eq (h.filter_nodes hv hkeep)),
    hedges.trans (h.filter_edges hv hkeep)⟩

/-- What pruning keeps has no ids that are still to be given out. -/
lemma beyond_of_prune {p : Pruned} (hp : f.prune d.other = .ok p) : s'.Beyond p.graph := by
  obtain ⟨p', hp', -, keep, -, hnodes, -⟩ :=
    Graph.exists_prune h.imprints.wellFormed (d := d.other) (h.find?_unpaired hv)
  obtain rfl := Except.ok.inj (hp'.symm.trans hp)
  intro n hn
  exact h.imprints.beyond n (List.mem_of_mem_filter (hnodes.mem_iff.mp hn))

section

variable {β : NodeId × NodeId → NodeId → NodeId}

variable (hβ : (host.adjacentPairs.map β).Perm βs)
  (hends : ∀ q ∈ host.adjacentPairs, β q d.tailId = q.1 ∧ β q d.headId = q.2)
include hβ hends

/-- What is left is determined by the host up to the new ids: a twin for each node, with the link of
those that have no edge, and what the rule creates in the other domain, once for each pair of
adjacent nodes. -/
theorem exists_output : ∃ (p : Pruned) (twin link : NodeId → NodeId), f.prune d.other = .ok p ∧
    p.graph.nodes.Perm
      (((host.nodes.filter fun n => host.isolated n.id).map (Pairing.linkOf a b d link) ++
          host.nodes.map (Pairing.twinOf a b d twin)) ++
        host.adjacentPairs.flatMap fun q =>
          ((r.newTemplates d).filter (·.domain == d.other)).map (·.made (β q))) ∧
    p.graph.edges.Perm
      (((host.nodes.filter fun n => host.isolated n.id).map fun n =>
          { tail := link n.id, head := twin n.id }) ++
        host.adjacentPairs.flatMap fun q =>
          ((r.newEdges d).filter (r.graph.edgeInside d.other)).map (·.placed (β q))) ∧
    (∀ q ∈ host.adjacentPairs,
      β q d.other.tailId = twin q.1 ∧ β q d.other.headId = twin q.2) ∧
    ∀ n ∈ host.nodes, Pairing.linkOf a b d link n ∈ f.nodes ∧
      f.Joins d (link n.id) [n.id] ∧ f.Joins d.other (link n.id) [twin n.id] := by
  obtain ⟨p, hp, hnodes, hedges⟩ := h.exists_prune hv
  obtain ⟨twin, link, htwins⟩ := h.exists_twins
  refine ⟨p, twin, link, hp, hnodes.trans ((h.perm_twins htwins).append ?_),
    (List.Perm.of_eq hedges).trans ((h.perm_twin_edges htwins).append ?_), fun q hq => ?_,
    fun n hn => h.linkOf_mem htwins hn⟩
  · have hperm := hβ.symm.flatMap_right fun β =>
      ((r.newTemplates d).filter (·.domain == d.other)).map (·.made β)
    rwa [List.flatMap_map] at hperm
  · have hperm := hβ.symm.flatMap_right fun β =>
      ((r.newEdges d).filter (r.graph.edgeInside d.other)).map (·.placed β)
    rwa [List.flatMap_map] at hperm
  · obtain ⟨t, ht, u, hu, -, -, htail, hhead⟩ :=
      h.exists_traces (β q) (hβ.mem_iff.mp (List.mem_map_of_mem hq))
    obtain ⟨hqt, hqh⟩ := hends q hq
    rw [htail, t.spot_self h.reads] at hqt
    rw [hhead, u.spot_self h.reads] at hqh
    rw [htail, hhead, t.spot_other h.reads, u.spot_other h.reads, ← hqt, ← hqh, (htwins t ht).1,
      (htwins u hu).1]
    exact ⟨rfl, rfl⟩

end

end Connected

end TripleGrammar
