import TripleGrammar.Proofs.PairingRuns
import TripleGrammar.Proofs.Renamings
import Mathlib.Data.List.Find

/-!
# There and back

What axioms derive from a host without edges is pruned to the links and the twins: the nodes that
were read are not reached from a twin, but the links are. So a derivation in the other direction
finds that each twin is linked already, by a link that has lost its other end. It has nothing to
add, and its own pruning fails at the first such link.
-/

namespace TripleGrammar

namespace Graph

variable {g h : Graph} {d : Domain} {avoid : NodeId → Prop} {a b c : NodeId} {ends : List NodeId}

/-- If edges run from correspondences to other nodes only, there are no paths but single edges. -/
lemma reaches_iff (hflat : ∀ e ∈ g.edges, g.domainOf? e.tail = some .correspondence ∧
    g.domainOf? e.head ≠ some .correspondence) :
    g.Reaches avoid a b ↔ a = b ∨ g.Passes avoid a b := by
  constructor
  · intro hpath
    induction hpath with
    | refl => exact Or.inl rfl
    | tail _ hstep ih =>
      rcases ih with rfl | ⟨-, -, e, he, -, rfl⟩
      · exact Or.inr hstep
      · obtain ⟨-, -, e', he', htail, -⟩ := hstep
        exact absurd (htail ▸ (hflat e' he').1) (hflat e he).2
  · rintro (rfl | hstep)
    · exact Relation.ReflTransGen.refl
    · exact Relation.ReflTransGen.single hstep

lemma isIsomorphicTo_of_nodes_nil (hg : g.WellFormed) (hh : h.WellFormed) (hgn : g.nodes = [])
    (hhn : h.nodes = []) : g.isIsomorphicTo h = true := by
  have hedges : ∀ k : Graph, k.WellFormed → k.nodes = [] → k.edges = [] := by
    intro k hk hnodes
    rw [List.eq_nil_iff_forall_not_mem]
    intro e he
    have htail := hk.tail_mem e he
    rw [hnodes] at htail
    cases htail
  rw [isIsomorphicTo_iff hg hh]
  refine ⟨id, ?_, ?_, ?_⟩
  · rw [hgn, hhn]
    exact Set.bijOn_id _
  · rw [hhn]
    exact fun n hn => absurd hn List.not_mem_nil
  · rw [hedges g hg hgn, hedges h hh hhn]
    exact List.Perm.refl _

lemma exists_prune_of_nodes_nil (hg : g.WellFormed) (hnil : g.nodes = []) (d : Domain) :
    ∃ p, g.prune d = .ok p ∧ p.graph.WellFormed ∧ p.graph.nodes = [] := by
  obtain ⟨p, hp, -, keep, -, hperm, -⟩ := exists_prune hg (d := d) (by rw [hnil]; rfl)
  rw [hnil] at hperm
  exact ⟨p, hp, wellFormed_of_prune hp, hperm.eq_nil⟩

lemma nodes_project_nil (hg : g.WellFormed) (hnil : g.nodes = []) (d : Domain) :
    (g.project d).nodes = [] := by
  rw [List.eq_nil_iff_forall_not_mem]
  intro n hn
  have hmem := (isPart_project hg d).mem n hn
  rw [hnil] at hmem
  cases hmem

end Graph

/-! ### Pruning what axioms have derived -/

/-- All that the graph has are the links and the twins of the traces, and an edge from each link to
its twin. -/
structure Torn (axioms : List Pairing) (d : Domain) (ts : List Trace) (g : Graph) : Prop where
  wellFormed : g.WellFormed
  mem_nodes_iff : ∀ n, n ∈ g.nodes ↔ ∃ t ∈ ts, n ∈ t.nodes d
  mem_edges_iff : ∀ e, e ∈ g.edges ↔ ∃ t ∈ ts, e = t.edge d d.other
  rule_mem : ∀ t ∈ ts, t.rule ∈ axioms
  link_inj : ∀ t ∈ ts, ∀ t' ∈ ts, t.link = t'.link → t = t'

namespace Traces

variable {axioms : List Pairing} {d x : Domain} {host g : Graph} {ids s : IdSupply}
  {ts : List Trace} {t : Trace} {id : NodeId} {n : Node} {e : Edge}

lemma domainOf?_link (h : Traces axioms d host ids ts g s) (ht : t ∈ ts) :
    g.domainOf? t.link = some .correspondence :=
  h.wellFormed.domainOf?_of_mem (h.linkNode_mem ht)

lemma domainOf?_twin (h : Traces axioms d host ids ts g s) (ht : t ∈ ts) :
    g.domainOf? t.twin = some d.other :=
  h.wellFormed.domainOf?_of_mem (h.twinNode_mem ht)

section

variable (h : Traces axioms d host ids ts g s) (hd : d ≠ .correspondence)
  (hplain : ∀ n ∈ host.nodes, n.domain = d) (hedges : host.edges = [])
include h

/-- The links of the host have as many ends as before. -/
lemma linkedCount_eq (hhost : host.WellFormed) (hn : n ∈ host.nodes) :
    g.linkedCount x n.id = host.linkedCount x n.id := by
  have hjoins : host.Joins x n.id (Node.idsIn x (host.successorsOf n.id)) :=
    fun id => hhost.mem_idsIn_successorsOf_iff.symm
  rw [Graph.linkedCount_of_joins h.wellFormed ((h.joins_iff hhost hn).mpr hjoins)
    (Graph.nodup_idsIn_successorsOf hhost n.id), Graph.length_idsIn_successorsOf hhost]

include hd in
lemma unpaired_link (hhost : host.WellFormed) (ht : t ∈ ts) : g.unpaired t.linkNode = false := by
  have hcount : ∀ x, x ≠ .correspondence → g.linkedCount x t.link = 1 := fun x hx =>
    Graph.linkedCount_of_joins h.wellFormed (h.joins_link hhost hd ht hx) (List.nodup_singleton _)
  have hpairing : g.isPairing t.link = true := by
    unfold Graph.isPairing
    rw [hcount .source (by decide), hcount .target (by decide)]
    rfl
  unfold Graph.unpaired
  change (_ && !g.isPairing t.link) = false
  rw [hpairing, Bool.not_true, Bool.and_false]

include hd in
/-- Each new link pairs two nodes, so a default correspondence that does not is one of the host. -/
lemma find?_unpaired_eq (hhost : host.WellFormed) :
    g.nodes.find? g.unpaired = host.nodes.find? host.unpaired := by
  have hnew : (ts.flatMap (·.nodes d)).find? g.unpaired = none := by
    rw [List.find?_eq_none]
    intro n hn
    obtain ⟨t, ht, hmem⟩ := List.mem_flatMap.mp hn
    rcases List.mem_pair.mp hmem with rfl | rfl
    · rw [h.unpaired_link hd hhost ht]
      exact Bool.false_ne_true
    · simp [Graph.unpaired, Trace.twinNode]
  have hold : host.nodes.find? g.unpaired = host.nodes.find? host.unpaired := by
    apply List.find?_congr
    intro n hn
    unfold Graph.unpaired Graph.isPairing
    rw [h.linkedCount_eq hhost hn, h.linkedCount_eq hhost hn]
  rw [h.nodes, List.find?_append, hnew, hold, Option.or_none]

include hedges in
lemma exists_end (he : e ∈ g.edges) : ∃ t ∈ ts, ∃ x, x ≠ .correspondence ∧ e = t.edge d x := by
  rcases h.mem_edges_iff.mp he with hold | ⟨t, ht, hnew⟩
  · rw [hedges] at hold
    cases hold
  · rcases List.mem_pair.mp hnew with rfl | rfl
    · exact ⟨t, ht, .source, by decide, rfl⟩
    · exact ⟨t, ht, .target, by decide, rfl⟩

include hd hplain

lemma exists_link (hn : n ∈ g.nodes) (hc : n.domain = .correspondence) :
    ∃ t ∈ ts, n = t.linkNode := by
  rcases h.mem_nodes_iff.mp hn with hold | ⟨t, ht, hnew⟩
  · exact absurd ((hplain n hold).symm.trans hc) hd
  · rcases List.mem_pair.mp hnew with rfl | rfl
    · exact ⟨t, ht, rfl⟩
    · exact absurd hc (Domain.other_ne_correspondence hd)

lemma find?_unpaired (hhost : host.WellFormed) : g.nodes.find? g.unpaired = none := by
  rw [h.find?_unpaired_eq hd hhost, List.find?_eq_none]
  intro n hn hunpaired
  simp only [Graph.unpaired, Bool.and_eq_true, beq_iff_eq] at hunpaired
  exact hd ((hplain n hn).symm.trans hunpaired.1.1)

lemma not_covered : ¬g.Covered x id := by
  rintro ⟨c, hc, hflag, -⟩
  obtain ⟨hc, hcd⟩ := List.mem_filter.mp hc
  obtain ⟨t, -, rfl⟩ := h.exists_link hd hplain hc (eq_of_beq hcd)
  cases hflag

lemma isSeed_iff (hhost : host.WellFormed) : g.IsSeed d.other id ↔ ∃ t ∈ ts, t.twin = id := by
  constructor
  · rintro ⟨-, ⟨c, hc, -, e, he, htail, rfl, hdomain⟩, -⟩
    obtain ⟨hc, hcd⟩ := List.mem_filter.mp hc
    obtain ⟨t, ht, rfl⟩ := h.exists_link hd hplain hc (eq_of_beq hcd)
    have hend := (h.joins_link hhost hd ht (Domain.other_ne_correspondence hd) _).mp
      ⟨e, he, htail, rfl, hdomain⟩
    rw [List.mem_singleton, t.endIn_other hd] at hend
    exact ⟨t, ht, hend.symm⟩
  · rintro ⟨t, ht, rfl⟩
    have hlink : t.linkNode ∈ g.nodesIn .correspondence :=
      List.mem_filter.mpr ⟨h.linkNode_mem ht, rfl⟩
    have hedge := h.edge_mem ht (Domain.other_ne_correspondence hd)
    exact ⟨Domain.other_ne_correspondence hd, ⟨t.linkNode, hlink, rfl, t.edge d d.other, hedge, rfl,
      t.endIn_other hd, h.domainOf?_twin ht⟩, h.not_covered hd hplain⟩

include hedges

/-- From the twins only the links are reached, against the edges. -/
lemma kept_iff (hhost : host.WellFormed) :
    g.Kept d.other id ↔ ∃ t ∈ ts, t.link = id ∨ t.twin = id := by
  have hflat : ∀ e ∈ g.edges, g.domainOf? e.tail = some .correspondence ∧
      g.domainOf? e.head ≠ some .correspondence := by
    intro e he
    obtain ⟨t, ht, x, hx, rfl⟩ := h.exists_end hedges he
    refine ⟨h.domainOf?_link ht, ?_⟩
    change g.domainOf? (t.endIn d x) ≠ _
    rw [h.domainOf?_endIn hd ht hx]
    exact fun heq => hx (Option.some.inj heq)
  unfold Graph.Kept
  simp only [Graph.reaches_iff hflat, h.isSeed_iff hd hplain hhost]
  constructor
  · rintro (hcovered | ⟨_, ⟨t, ht, rfl⟩, (rfl | ⟨-, -, e, he, htail, -⟩) |
      (rfl | ⟨-, -, e, he, rfl, -⟩)⟩)
    · exact absurd hcovered (h.not_covered hd hplain)
    · exact ⟨t, ht, Or.inr rfl⟩
    · have hlink := (hflat e he).1
      rw [htail, h.domainOf?_twin ht] at hlink
      exact absurd (Option.some.inj hlink) (Domain.other_ne_correspondence hd)
    · exact ⟨t, ht, Or.inr rfl⟩
    · obtain ⟨t', ht', x, -, rfl⟩ := h.exists_end hedges he
      exact ⟨t', ht', Or.inl rfl⟩
  · rintro ⟨t, ht, rfl | rfl⟩
    · have hedge := h.edge_mem ht (Domain.other_ne_correspondence hd)
      exact Or.inr ⟨t.twin, ⟨t, ht, rfl⟩, Or.inr (Or.inr ⟨h.not_covered hd hplain,
        h.not_covered hd hplain, t.edge d d.other, hedge, rfl, t.endIn_other hd⟩)⟩
    · exact Or.inr ⟨t.twin, ⟨t, ht, rfl⟩, Or.inl (Or.inl rfl)⟩

/-- Pruning such a host loses the nodes that were read. -/
theorem exists_prune (hhost : host.WellFormed) :
    ∃ p, g.prune d.other = .ok p ∧ Torn axioms d ts p.graph := by
  obtain ⟨p, hp, -, keep, hkeep, hnodes, hkept⟩ :=
    Graph.exists_prune h.wellFormed (d := d.other) (h.find?_unpaired hd hplain hhost)
  simp only [h.kept_iff hd hplain hedges hhost] at hkeep
  have hlink : ∀ t ∈ ts, keep t.link = true := fun t ht => (hkeep _).mpr ⟨t, ht, Or.inl rfl⟩
  have htwin : ∀ t ∈ ts, keep t.twin = true := fun t ht => (hkeep _).mpr ⟨t, ht, Or.inr rfl⟩
  have hlost : ∀ id, g.domainOf? id = some d → ¬keep id = true := by
    intro id hid hkeepid
    obtain ⟨t, ht, rfl | rfl⟩ := (hkeep id).mp hkeepid
    · rw [h.domainOf?_link ht] at hid
      exact hd (Option.some.inj hid).symm
    · rw [h.domainOf?_twin ht] at hid
      exact Domain.other_ne_self hd (Option.some.inj hid)
  refine ⟨p, hp, Graph.wellFormed_of_prune hp, fun n => ?_, fun e => ?_,
    fun t ht => (h.reads t ht).1, fun t ht t' ht' => h.link_inj ht ht'⟩
  · rw [hnodes.mem_iff, List.mem_filter, h.mem_nodes_iff]
    constructor
    · rintro ⟨hold | hnew, hkeepn⟩
      · refine absurd hkeepn (hlost n.id ?_)
        rw [← hplain n hold]
        exact h.wellFormed.domainOf?_of_mem (h.mem_nodes_iff.mpr (Or.inl hold))
      · exact hnew
    · rintro ⟨t, ht, hn⟩
      refine ⟨Or.inr ⟨t, ht, hn⟩, ?_⟩
      rcases List.mem_pair.mp hn with rfl | rfl
      · exact hlink t ht
      · exact htwin t ht
  · rw [hkept, List.mem_filter, Bool.and_eq_true]
    constructor
    · rintro ⟨he, -, hhead⟩
      obtain ⟨t, ht, x, hx, rfl⟩ := h.exists_end hedges he
      have hne : x ≠ d := by
        rintro rfl
        exact hlost _ (h.domainOf?_endIn hd ht hx) hhead
      exact ⟨t, ht, by rw [Domain.eq_other hd hx hne]⟩
    · rintro ⟨t, ht, rfl⟩
      refine ⟨h.edge_mem ht (Domain.other_ne_correspondence hd), hlink t ht, ?_⟩
      change keep (t.endIn d d.other) = true
      rw [t.endIn_other hd]
      exact htwin t ht

end

end Traces

/-! ### Reading the twins -/

namespace Torn

variable {axioms : List Pairing} {d : Domain} {g : Graph} {ts : List Trace} {t : Trace}
  {a : Pairing} {id : NodeId} {n : Node}

variable (h : Torn axioms d ts g) (hd : d ≠ .correspondence)
include h

lemma linkNode_mem (ht : t ∈ ts) : t.linkNode ∈ g.nodes :=
  (h.mem_nodes_iff _).mpr ⟨t, ht, List.mem_cons_self⟩

lemma twinNode_mem (ht : t ∈ ts) : t.twinNode d ∈ g.nodes :=
  (h.mem_nodes_iff _).mpr ⟨t, ht, List.mem_cons_of_mem _ List.mem_cons_self⟩

include hd

lemma exists_link (hn : n ∈ g.nodes) (hc : n.domain = .correspondence) :
    ∃ t ∈ ts, n = t.linkNode := by
  obtain ⟨t, ht, hnew⟩ := (h.mem_nodes_iff n).mp hn
  rcases List.mem_pair.mp hnew with rfl | rfl
  · exact ⟨t, ht, rfl⟩
  · exact absurd hc (Domain.other_ne_correspondence hd)

/-- The only edge from a link leads to its twin. -/
lemma exists_edge_iff (ht : t ∈ ts) {x : Domain} :
    (∃ e ∈ g.edges, e.tail = t.link ∧ e.head = id ∧ g.domainOf? id = some x) ↔
      id = t.twin ∧ x = d.other := by
  have hdomain : g.domainOf? t.twin = some d.other :=
    h.wellFormed.domainOf?_of_mem (h.twinNode_mem ht)
  constructor
  · rintro ⟨e, he, htail, rfl, hx⟩
    obtain ⟨t', ht', rfl⟩ := (h.mem_edges_iff e).mp he
    obtain rfl := h.link_inj t' ht' t ht htail
    change g.domainOf? (t'.endIn d d.other) = some x at hx
    rw [t'.endIn_other hd, hdomain] at hx
    exact ⟨t'.endIn_other hd, (Option.some.inj hx).symm⟩
  · rintro ⟨rfl, rfl⟩
    exact ⟨t.edge d d.other, (h.mem_edges_iff _).mpr ⟨t, ht, rfl⟩, rfl, t.endIn_other hd, hdomain⟩

lemma joins_other (ht : t ∈ ts) : g.Joins d.other t.link [t.twin] := by
  intro id
  rw [h.exists_edge_iff hd ht]
  simp

lemma joins_self (ht : t ∈ ts) : g.Joins d t.link [] := by
  intro id
  rw [h.exists_edge_iff hd ht]
  simp [(Domain.other_ne_self hd).symm]

/-- The twin of an axiom is linked already, by a link of the axiom. -/
lemma not_reads (hkinds : (axioms.map (·.kindIn d.other)).Nodup) (ha : a ∈ axioms) :
    ¬a.Reads d.other g id := by
  rintro ⟨n, hn, rfl, hdomain, hkind, hnew⟩
  obtain ⟨t, ht, hmem⟩ := (h.mem_nodes_iff n).mp hn
  rcases List.mem_pair.mp hmem with rfl | rfl
  · exact Domain.other_ne_correspondence hd hdomain.symm
  · obtain rfl := List.inj_on_of_nodup_map hkinds (h.rule_mem t ht) ha hkind
    exact hnew ⟨t.linkNode, h.linkNode_mem ht, rfl, rfl, h.joins_other hd ht⟩

lemma rests (hkinds : (axioms.map (·.kindIn d.other)).Nodup) (ha : a ∈ axioms) :
    a.rule.Rests d.other g :=
  Pairing.rests_of_not_reads (Domain.other_ne_correspondence hd) h.wellFormed
    fun _ => h.not_reads hd hkinds ha

omit hd in
lemma nodes_eq_nil (hts : ts = []) : g.nodes = [] := by
  rw [List.eq_nil_iff_forall_not_mem]
  intro n hn
  obtain ⟨t, ht, -⟩ := (h.mem_nodes_iff n).mp hn
  rw [hts] at ht
  cases ht

/-- Each link is a default correspondence that has no end in `d` any more. -/
lemma find?_unpaired (hne : ts ≠ []) : ∃ t ∈ ts, g.nodes.find? g.unpaired = some t.linkNode ∧
    g.linkedCount d t.link = 0 ∧ g.linkedCount d.other t.link = 1 := by
  have hcounts : ∀ t ∈ ts, g.linkedCount d t.link = 0 ∧ g.linkedCount d.other t.link = 1 :=
    fun t ht => ⟨Graph.linkedCount_of_joins h.wellFormed (h.joins_self hd ht) List.nodup_nil,
      Graph.linkedCount_of_joins h.wellFormed (h.joins_other hd ht) (List.nodup_singleton _)⟩
  have hunpaired : ∀ t ∈ ts, g.unpaired t.linkNode = true := by
    intro t ht
    have hzero := (hcounts t ht).1
    unfold Graph.unpaired Graph.isPairing
    cases d with
    | source => simp [Trace.linkNode, hzero]
    | target => simp [Trace.linkNode, hzero]
    | correspondence => exact absurd rfl hd
  obtain ⟨t, ht⟩ := List.exists_mem_of_ne_nil ts hne
  cases hfirst : g.nodes.find? g.unpaired with
  | none => exact absurd (hunpaired t ht) (List.find?_eq_none.mp hfirst _ (h.linkNode_mem ht))
  | some c =>
    have hc := List.find?_some hfirst
    simp only [Graph.unpaired, Bool.and_eq_true, beq_iff_eq] at hc
    obtain ⟨t', ht', rfl⟩ := h.exists_link hd (List.mem_of_find?_eq_some hfirst) hc.1.1
    exact ⟨t', ht', rfl, hcounts t' ht'⟩

end Torn

namespace Traces

variable {axioms : List Pairing} {d : Domain} {host g : Graph} {ids s : IdSupply} {ts : List Trace}

/-- If each node is of a type that an axiom reads, there are traces unless there are no nodes. -/
lemma eq_nil_iff (h : Traces axioms d host ids ts g s) (hhost : host.WellFormed)
    (hd : d ≠ .correspondence) (hlinks : (axioms.map (·.linkKind)).Nodup)
    (hnodes : ∀ n ∈ host.nodes, n.domain = d ∧ n.kind ∈ axioms.map (·.kindIn d))
    (hnone : ∀ a ∈ axioms, ∀ id, ¬a.Reads d g id) : ts = [] ↔ host.nodes = [] := by
  constructor
  · rintro rfl
    rw [List.eq_nil_iff_forall_not_mem]
    intro n hn
    obtain ⟨a, ha, hkind⟩ := List.mem_map.mp (hnodes n hn).2
    obtain ⟨t, ht, -⟩ := h.exists_trace_of_kind hhost hd (fun n hn => (hnodes n hn).1) hlinks ha
      (hnone a ha) hn hkind.symm
    cases ht
  · intro hnil
    rw [List.eq_nil_iff_forall_not_mem]
    intro t ht
    obtain ⟨-, n, hn, -⟩ := h.reads t ht
    rw [hnil] at hn
    cases hn

end Traces

namespace Grammar

variable {G : Grammar} {axioms : List Pairing} {host : Graph} {ids : IdSupply}

/-- Axioms do not bring back a host of nodes without edges, each of a type that one axiom reads. On
the graph that they derive from it all of them rest when they are read from the other side, and
this graph cannot be pruned then, unless there are no nodes at all. -/
theorem backward_restores_iff
    (hrules : List.Forall₂
      (fun a r => Rule.pairing a.name a.sourceKind a.targetKind a.linkKind = .ok r) axioms G.rules)
    (hsources : (axioms.map (·.sourceKind)).Nodup) (htargets : (axioms.map (·.targetKind)).Nodup)
    (hlinks : (axioms.map (·.linkKind)).Nodup) (hpolicy : G.policy = {})
    (hG : ∀ k, G.strategy k = .backtracking) (hhost : host.WellFormed)
    (hnodes : ∀ n ∈ host.nodes, n.domain = .source ∧ n.kind ∈ axioms.map (·.sourceKind))
    (hedges : host.edges = []) (hroom : ids.RoomBeyond host (2 * host.nodes.length)) :
    ∃ o t o', (∀ fuel, host.nodes.length + 1 ≤ fuel → G.forward fuel host ids = some o) ∧
      o.result = .ok t ∧ (∀ fuel, 0 < fuel → G.backward fuel t.graph o.ids = some o') ∧
      o'.host = t.graph ∧
      ((∃ t', o'.result = .ok t' ∧ (t'.graph.project .source).isIsomorphicTo host = true) ↔
        host.nodes = []) ∧
      (host.nodes ≠ [] → ∃ c ∈ t.graph.nodes, o'.result = .error (.defaultArity c.id 0 1)) := by
  have hd : Domain.source ≠ .correspondence := by decide
  have hplain : ∀ n ∈ host.nodes, n.domain = .source := fun n hn => (hnodes n hn).1
  have hrules := Pairing.rules_eq hrules
  obtain ⟨ts, q, hrun, htraces, -, hnone⟩ := Traces.exists_run hG hhost hd
    (readsAtMost_length hhost hsources) hroom hrules
  obtain ⟨p, hp, htorn⟩ := htraces.exists_prune hd hplain hedges hhost
  have hprune : G.policy.prune = true := by rw [hpolicy]
  obtain ⟨t, ht, hgraph, -, -⟩ := finish_of_output .source (output_of_prune hprune hp)
  have hrests : ∀ r ∈ G.rules, r.Rests .target t.graph := by
    rw [hrules, hgraph]
    intro r hr
    obtain ⟨a, ha, rfl⟩ := List.mem_map.mp hr
    exact htorn.rests hd htargets ha
  obtain ⟨q', hback, hq', -, -, -⟩ := exists_finish_of_rests hG hrests .source q.ids
  refine ⟨G.finish .source .target q, t, G.finish .target .source q', fun fuel hfuel => ?_, ht, ?_,
    host_finish.trans hq', ?_⟩
  · unfold forward derive
    rw [hrun fuel hfuel]
  · rw [ids_finish]
    exact hback
  rw [← hgraph, ← hq'] at htorn
  rw [← hq']
  have hnil := htraces.eq_nil_iff hhost hd hlinks hnodes hnone
  by_cases hempty : host.nodes = []
  · have hq'nil := htorn.nodes_eq_nil (hnil.mpr hempty)
    obtain ⟨p', hp', hwf, hp'nil⟩ :=
      Graph.exists_prune_of_nodes_nil htorn.wellFormed hq'nil .source
    obtain ⟨t', ht', hgraph', -, -⟩ := finish_of_output .target (output_of_prune hprune hp')
    rw [← hgraph'] at hwf hp'nil
    have hiso := Graph.isIsomorphicTo_of_nodes_nil (Graph.isPart_project hwf .source).wellFormed
      hhost (Graph.nodes_project_nil hwf hp'nil .source) hempty
    exact ⟨iff_of_true ⟨t', ht', hiso⟩ hempty, fun hne => absurd hempty hne⟩
  · obtain ⟨t', ht', hfirst, hzero, hone⟩ := htorn.find?_unpaired hd (mt hnil.mp hempty)
    have hfail : q'.host.prune .source = .error (.defaultArity t'.link 0 1) := by
      rw [Graph.prune_eq_error htorn.wellFormed hfirst, ← hzero, ← hone]
      rfl
    have herror : (G.finish .target .source q').result = .error (.defaultArity t'.link 0 1) :=
      finish_of_output_error (output_of_prune_error hprune hfail)
    refine ⟨iff_of_false ?_ hempty, fun _ => ⟨_, htorn.linkNode_mem ht', herror⟩⟩
    rintro ⟨t'', hok, -⟩
    rw [herror] at hok
    cases hok

/-- A queue and a topic, each of them read by an axiom. -/
theorem backward_restores_iff_topics :
    let axioms : List Pairing :=
      [{ name := "queue", sourceKind := "Queue", targetKind := "CfnQueue",
         linkKind := "QueueAxiom" },
       { name := "topic", sourceKind := "Topic", targetKind := "CfnTopic",
         linkKind := "TopicAxiom" }]
    let G : Grammar := { rules := axioms.map (·.rule) }
    let host := (Graph.assemble [{ id := ⟨0⟩, kind := "Queue", domain := .source },
      { id := ⟨1⟩, kind := "Topic", domain := .source }] []).after ∅
    let ids : IdSupply := { next := ⟨2⟩ }
    List.Forall₂ (fun a r => Rule.pairing a.name a.sourceKind a.targetKind a.linkKind = .ok r)
        axioms G.rules ∧
      (axioms.map (·.sourceKind)).Nodup ∧ (axioms.map (·.targetKind)).Nodup ∧
      (axioms.map (·.linkKind)).Nodup ∧ G.policy = {} ∧
      (∀ k, G.strategy k = .backtracking) ∧ host.WellFormed ∧
      (∀ n ∈ host.nodes, n.domain = .source ∧ n.kind ∈ axioms.map (·.sourceKind)) ∧
      host.edges = [] ∧ ids.RoomBeyond host (2 * host.nodes.length) ∧
      ∃ o t o' c, G.forward 3 host ids = some o ∧ o.result = .ok t ∧
        G.backward 1 t.graph o.ids = some o' ∧ o'.host = t.graph ∧
        o'.result = .error (.defaultArity c 0 1) := by
  intro axioms G host ids
  have hrules : List.Forall₂ (fun (a : Pairing) r =>
      Rule.pairing a.name a.sourceKind a.targetKind a.linkKind = .ok r) axioms G.rules :=
    .cons (Pairing.pairing_eq _) (.cons (Pairing.pairing_eq _) .nil)
  have hsources : (axioms.map (·.sourceKind)).Nodup := by decide
  have htargets : (axioms.map (·.targetKind)).Nodup := by decide
  have hlinks : (axioms.map (·.linkKind)).Nodup := by decide
  have hG : ∀ k, G.strategy k = .backtracking := fun _ => rfl
  have hhost : host.WellFormed :=
    Graph.assemble_keeps_wellFormed _ _ ∅ (Graph.wellFormed_bare none)
  have hnodes : ∀ n ∈ host.nodes, n.domain = .source ∧ n.kind ∈ axioms.map (·.sourceKind) := by
    decide +kernel
  have hedges : host.edges = [] := by decide +kernel
  have hroom : ids.RoomBeyond host (2 * host.nodes.length) := by decide +kernel
  have hne : host.nodes ≠ [] := by decide +kernel
  obtain ⟨o, t, o', hforward, ht, hbackward, hsame, -, hfail⟩ :=
    backward_restores_iff hrules hsources htargets hlinks rfl hG hhost hnodes hedges hroom
  obtain ⟨c, -, herror⟩ := hfail hne
  exact ⟨hrules, hsources, htargets, hlinks, rfl, hG, hhost, hnodes, hedges, hroom,
    o, t, o', c.id, hforward 3 (by decide +kernel), ht, hbackward 1 Nat.one_pos, hsame, herror⟩

/-- A queue alone, in a host from which nothing comes back. -/
theorem backward_fails_queue :
    let a : Pairing :=
      { name := "queue", sourceKind := "Queue", targetKind := "CfnQueue", linkKind := "QueueAxiom" }
    let G : Grammar := { rules := [a.rule] }
    let host := (Graph.assemble [{ id := ⟨0⟩, kind := "Queue", domain := .source }] []).after ∅
    Rule.pairing "queue" "Queue" "CfnQueue" "QueueAxiom" = .ok a.rule ∧
      ∃ o t o', G.forward 2 host { next := ⟨1⟩ } = some o ∧ o.result = .ok t ∧
        G.backward 1 t.graph o.ids = some o' ∧ o'.result = .error (.defaultArity ⟨1⟩ 0 1) := by
  intro a G host
  have hfails : ((G.forward 2 host { next := ⟨1⟩ }).bind fun o => o.result.toOption.bind fun t =>
      (G.backward 1 t.graph o.ids).map fun o' => match o'.result with
        | .error e => some e
        | .ok _ => none) = some (some (.defaultArity ⟨1⟩ 0 1)) := by
    decide +kernel
  obtain ⟨o, ho, hback⟩ := Option.bind_eq_some_iff.mp hfails
  obtain ⟨t, ht, hback⟩ := Option.bind_eq_some_iff.mp hback
  obtain ⟨o', ho', herror⟩ := Option.map_eq_some_iff.mp hback
  refine ⟨a.pairing_eq, o, t, o', ho, Outcome.result_eq_ok ht, ho', ?_⟩
  split at herror
  next e he => rw [he, Option.some.inj herror]
  next => cases herror

end Grammar

end TripleGrammar
