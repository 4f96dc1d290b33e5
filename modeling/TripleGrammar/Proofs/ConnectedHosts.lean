import TripleGrammar.Proofs.Connections

/-!
# Hosts in which paired nodes are connected

After a run of two axioms and a rule between paired nodes each node of the host has its twin, and
what the rule has created can be told by the pairs of adjacent nodes. So the end of the run, how
often each rule has fired and the ids that have been drawn can be read off the host.
-/

namespace TripleGrammar

/-- The axiom of the two that reads a type. -/
def Pairing.of (a b : Pairing) (d : Domain) (k : String) : Pairing :=
  if k = a.kindIn d then a else b

lemma Pairing.of_kindIn {a b c : Pairing} {d : Domain} (hne : a.kindIn d ≠ b.kindIn d)
    (hc : c ∈ [a, b]) : Pairing.of a b d (c.kindIn d) = c := by
  unfold Pairing.of
  rcases List.mem_pair.mp hc with rfl | rfl
  · exact if_pos rfl
  · exact if_neg hne.symm

/-- What one of the two axioms makes of a node in the other domain. -/
def Pairing.twinOf (a b : Pairing) (d : Domain) (twin : NodeId → NodeId) (n : Node) : Node :=
  { id := twin n.id, kind := (Pairing.of a b d n.kind).kindIn d.other, domain := d.other }

/-- The default correspondence that links the node to its twin. -/
def Pairing.linkOf (a b : Pairing) (d : Domain) (link : NodeId → NodeId) (n : Node) : Node :=
  { id := link n.id, kind := (Pairing.of a b d n.kind).linkKind, domain := .correspondence,
    isDefault := true }

namespace Connected

variable {r : Rule} {a b : Pairing} {d x : Domain} {host g f : Graph} {ids s s' : IdSupply}
  {ts : List Trace} {βs : List (NodeId → NodeId)} {β : NodeId → NodeId} {t : Trace} {c : Node}
  {id : NodeId} {e : Edge}

variable (h : Connected r a b d host ids ts g s βs f s')
include h

lemma plain : ∀ n ∈ host.nodes, n.domain = d := fun n hn => (h.bipartite.nodes n hn).1

lemma nodup_kinds : ([a, b].map (·.kindIn d)).Nodup := by simpa using h.apart d

/-! ### Domains -/

lemma linkNode_mem (ht : t ∈ ts) : t.linkNode ∈ f.nodes :=
  h.imprints.mem_nodes (h.traces.linkNode_mem ht)

lemma domainOf?_link (ht : t ∈ ts) : f.domainOf? t.link = some .correspondence :=
  h.imprints.domainOf?_eq (h.traces.linkNode_mem ht)

lemma domainOf?_twin (ht : t ∈ ts) : f.domainOf? t.twin = some d.other :=
  h.imprints.domainOf?_eq (h.traces.twinNode_mem ht)

lemma domainOf?_host (hid : id ∈ host.nodes.map (·.id)) : f.domainOf? id = some d := by
  obtain ⟨n, hn, rfl⟩ := List.mem_map.mp hid
  rw [h.imprints.domainOf?_eq (h.traces.mem_nodes_iff.mpr (Or.inl hn)), h.plain n hn]

lemma domainOf?_tail (hβ : β ∈ βs) (he : e ∈ r.newEdges d) :
    f.domainOf? (β e.tail) = r.graph.domainOf? e.tail :=
  h.imprints.domainOf?_image h.connects.layered.wellFormed hβ
    (h.connects.layered.wellFormed.tail_mem e (Rule.mem_of_mem_newEdges he).1)

lemma domainOf?_head (hβ : β ∈ βs) (he : e ∈ r.newEdges d) :
    f.domainOf? (β e.head) = r.graph.domainOf? e.head :=
  h.imprints.domainOf?_image h.connects.layered.wellFormed hβ
    (h.connects.layered.wellFormed.head_mem e (Rule.mem_of_mem_newEdges he).1)

lemma edge_cases (he : e ∈ f.edges) : e ∈ host.edges ∨
    (∃ t ∈ ts, ∃ x, x ≠ .correspondence ∧ e = t.edge d x) ∨
      ∃ β ∈ βs, ∃ e₀ ∈ r.newEdges d, e₀.placed β = e := by
  rcases h.imprints.mem_edges_iff.mp he with hold | hnew
  · rcases h.traces.mem_edges_iff.mp hold with hhost | ⟨t, ht, hnew⟩
    · exact Or.inl hhost
    · rcases List.mem_pair.mp hnew with rfl | rfl
      · exact Or.inr (Or.inl ⟨t, ht, .source, by decide, rfl⟩)
      · exact Or.inr (Or.inl ⟨t, ht, .target, by decide, rfl⟩)
  · exact Or.inr (Or.inr hnew)

/-! ### Links -/

/-- A correspondence is the link of a trace, or the rule has created it. -/
lemma link_cases (hc : c ∈ f.nodes) (hcd : c.domain = .correspondence) :
    (∃ t ∈ ts, c = t.linkNode) ∨
      ∃ β ∈ βs, ∃ n ∈ r.newTemplates d, n.domain = .correspondence ∧ n.made β = c := by
  rcases h.imprints.mem_nodes_iff.mp hc with hold | ⟨β, hβ, n, hn, rfl⟩
  · exact Or.inl (h.traces.exists_link h.reads h.plain hold hcd)
  · exact Or.inr ⟨β, hβ, n, hn, hcd, rfl⟩

lemma joins_link (ht : t ∈ ts) (hx : x ≠ .correspondence) : f.Joins x t.link [t.endIn d x] :=
  (h.imprints.joins_iff h.connects.layered h.traces.wellFormed (h.traces.linkNode_mem ht) rfl).mpr
    (h.traces.joins_link h.wellFormed h.reads ht hx)

/-! ### In terms of the host -/

/-- Each node of the host has one trace, which is that of the axiom that reads its type. -/
lemma perm_nodes : (ts.map fun t => (t.node, t.rule)).Perm
    (host.nodes.map fun n => (n.id, Pairing.of a b d n.kind)) := by
  have hof : ∀ c ∈ [a, b], Pairing.of a b d (c.kindIn d) = c :=
    fun c hc => Pairing.of_kindIn (h.apart d) hc
  have hts : (ts.map fun t => (t.node, t.rule)).Nodup := by
    have hswap := h.traces.nodup.map (f := Prod.swap) Prod.swap_injective
    rwa [List.map_map] at hswap
  have hhost : (host.nodes.map fun n => (n.id, Pairing.of a b d n.kind)).Nodup := by
    refine List.Nodup.of_map Prod.fst ?_
    rw [List.map_map]
    exact h.wellFormed.nodup
  apply (List.perm_ext_iff_of_nodup hts hhost).mpr
  rintro ⟨id, c⟩
  simp only [List.mem_map, Prod.mk.injEq]
  constructor
  · rintro ⟨t, ht, rfl, rfl⟩
    obtain ⟨hmem, n, hn, hid, -, hkind, -⟩ := h.traces.reads t ht
    exact ⟨n, hn, hid, by rw [hkind, hof _ hmem]⟩
  · rintro ⟨n, hn, rfl, rfl⟩
    rcases (h.bipartite.nodes n hn).2 with hkind | hkind
    · obtain ⟨t, ht, hrule, hnode⟩ := h.exists_trace a List.mem_cons_self n hn hkind
      exact ⟨t, ht, hnode, by rw [hrule, hkind, hof a List.mem_cons_self]⟩
    · have hb : b ∈ [a, b] := List.mem_cons_of_mem _ List.mem_cons_self
      obtain ⟨t, ht, hrule, hnode⟩ := h.exists_trace b hb n hn hkind
      exact ⟨t, ht, hnode, by rw [hrule, hkind, hof b hb]⟩

/-- The imprints can be told by the pairs of adjacent nodes. -/
lemma exists_bindings : ∃ β : NodeId × NodeId → NodeId → NodeId,
    (host.adjacentPairs.map β).Perm βs ∧
      ∀ q ∈ host.adjacentPairs, β q d.tailId = q.1 ∧ β q d.headId = q.2 := by
  have : Nonempty NodeId := ⟨⟨0⟩⟩
  obtain ⟨β, hβ⟩ := Graph.exists_function_of_nodup
    (h.pairs.nodup_iff.mpr (List.nodup_dedup _)) id
  refine ⟨β, ?_, fun q hq => ?_⟩
  · have hperm := h.pairs.symm.map β
    rw [List.map_map] at hperm
    exact hperm.trans (.of_eq ((List.map_congr_left hβ).trans (List.map_id βs)))
  · obtain ⟨β', hβ', rfl⟩ := List.mem_map.mp (h.pairs.mem_iff.mpr hq)
    rw [hβ β' hβ']
    exact ⟨rfl, rfl⟩

lemma exists_twins : ∃ twin link : NodeId → NodeId,
    ∀ t ∈ ts, twin t.node = t.twin ∧ link t.node = t.link := by
  have : Nonempty NodeId := ⟨⟨0⟩⟩
  have hkeys : (ts.map (·.node)).Nodup := by
    have hids := (h.perm_nodes.map Prod.fst).nodup_iff.mpr (by
      rw [List.map_map]
      exact h.wellFormed.nodup)
    rwa [List.map_map] at hids
  obtain ⟨twin, htwin⟩ := Graph.exists_function_of_nodup hkeys (·.twin)
  obtain ⟨link, hlink⟩ := Graph.exists_function_of_nodup hkeys (·.link)
  exact ⟨twin, link, fun t ht => ⟨htwin t ht, hlink t ht⟩⟩

/-- Each node of the host is linked to its twin. -/
lemma linkOf_mem {twin link : NodeId → NodeId} {n : Node}
    (htwins : ∀ t ∈ ts, twin t.node = t.twin ∧ link t.node = t.link) (hn : n ∈ host.nodes) :
    Pairing.linkOf a b d link n ∈ f.nodes ∧ f.Joins d (link n.id) [n.id] ∧
      f.Joins d.other (link n.id) [twin n.id] := by
  obtain ⟨t, ht, heq⟩ := List.mem_map.mp
    (h.perm_nodes.mem_iff.mpr (List.mem_map.mpr ⟨n, hn, rfl⟩))
  obtain ⟨hnode, hrule⟩ := Prod.mk.inj heq
  have hself := h.joins_link ht h.reads
  have hother := h.joins_link ht (Domain.other_ne_correspondence h.reads)
  rw [t.endIn_self] at hself
  rw [t.endIn_other h.reads] at hother
  unfold Pairing.linkOf
  rw [← hrule, ← hnode, (htwins t ht).1, (htwins t ht).2]
  exact ⟨h.linkNode_mem ht, hself, hother⟩

section

variable {β : NodeId × NodeId → NodeId → NodeId} {q : NodeId × NodeId} {k : String}

variable (hβ : (host.adjacentPairs.map β).Perm βs)
include hβ

/-- What is of a type of which the axioms create nothing has been created by the rule. -/
lemma perm_nodes_of_kind (hk : ∀ x, a.kindIn x ≠ k ∧ b.kindIn x ≠ k) :
    (f.nodes.filter (·.kind == k)).Perm (host.adjacentPairs.flatMap fun q =>
      ((r.newTemplates d).filter (·.kind == k)).map (·.made (β q))) := by
  have hrule : ∀ t ∈ ts, ∀ x, t.rule.kindIn x ≠ k := by
    intro t ht x
    rcases List.mem_pair.mp (h.traces.reads t ht).1 with hrule | hrule
    · rw [hrule]
      exact (hk x).1
    · rw [hrule]
      exact (hk x).2
  have hold : g.nodes.filter (·.kind == k) = [] := by
    rw [List.filter_eq_nil_iff]
    intro n hn hkind
    have hkind := eq_of_beq hkind
    rcases h.traces.mem_nodes_iff.mp hn with hhost | ⟨t, ht, hnew⟩
    · rcases (h.bipartite.nodes n hhost).2 with heq | heq
      · exact (hk d).1 (heq.symm.trans hkind)
      · exact (hk d).2 (heq.symm.trans hkind)
    · rcases List.mem_pair.mp hnew with rfl | rfl
      · exact hrule t ht .correspondence hkind
      · exact hrule t ht d.other hkind
  have hperm := hβ.symm.flatMap_right fun β =>
    ((r.newTemplates d).filter (·.kind == k)).map (·.made β)
  rw [List.flatMap_map] at hperm
  rw [h.imprints.nodes, List.filter_append, hold, List.nil_append, List.filter_flatMap]
  refine (List.Perm.of_eq (List.flatMap_congr fun β' _ => ?_)).trans hperm
  rw [List.filter_map]
  rfl

variable (hends : ∀ q ∈ host.adjacentPairs, β q d.tailId = q.1 ∧ β q d.headId = q.2)
include hends

/-- The links that the rule has created join the nodes of the pairs. -/
lemma joins_pair (hc : c ∈ r.newTemplates d) (hcd : c.domain = .correspondence)
    (hq : q ∈ host.adjacentPairs) : f.Joins d (β q c.id) [q.1, q.2] := by
  intro id
  obtain ⟨htail, hhead⟩ := hends q hq
  rw [List.mem_pair, ← htail, ← hhead, ← h.connects.mem_imageIn_iff]
  exact h.imprints.joins_made h.connects.layered h.traces.wellFormed
    (hβ.mem_iff.mp (List.mem_map_of_mem hq)) hc hcd id

end

lemma ids_eq : s' =
    ids.skip (2 * host.nodes.length + (r.newTemplates d).length * host.adjacentPairs.length) := by
  have hnodes := h.perm_nodes.length_eq
  have hpairs := h.pairs.length_eq
  rw [List.length_map, List.length_map] at hnodes
  rw [List.length_map] at hpairs
  rw [h.imprints.ids, h.traces.ids, IdSupply.skip_skip, hnodes, hpairs]

end Connected

/-! ### Derivations -/

/-- The derivation ends when each axiom has fired at each node of its type and the rule at each pair
of adjacent nodes. It returns what is left when the host has been pruned. -/
theorem Rule.Connects.exists_derive {r : Rule} {a b : Pairing} {d : Domain} {host : Graph}
    {ids : IdSupply} {G : Grammar} (hc : r.Connects a b d) (hd : d ≠ .correspondence)
    (hhost : host.WellFormed) (hbipartite : host.Bipartite (a.kindIn d) (b.kindIn d) d)
    (hapart : ∀ x, a.kindIn x ≠ b.kindIn x) (hG : ∀ k, G.strategy k = .backtracking)
    (hrules : G.rules = [a.rule, b.rule, r]) (hprune : G.policy.prune = true)
    (hroom : ids.RoomBeyond host
      (2 * host.nodes.length + (r.newTemplates d).length * host.adjacentPairs.length)) :
    ∃ o ts g s βs, Connected r a b d host ids ts g s βs o.host o.ids ∧
      (∀ fuel, host.nodes.length + host.adjacentPairs.length + 1 ≤ fuel →
        G.derive d d.other fuel host ids = some o) ∧
      ∀ p, o.host.prune d.other = .ok p → ∃ t, o.result = .ok t ∧ t.graph = p.graph ∧
        t.passes = host.nodes.length + host.adjacentPairs.length + 1 ∧
        ∀ k, t.firings.get? k =
          tally ((host.nodes.map fun n => (Pairing.of a b d n.kind).name).count k +
            (List.replicate host.adjacentPairs.length r.name).count k) := by
  obtain ⟨sites, q, ts, g, s, βs, hsettles, h, hsites⟩ :=
    hc.exists_settles hd hhost hbipartite hapart hG hrules hroom
  have hpairs := h.pairs.length_eq
  have hnodes := h.perm_nodes.length_eq
  rw [List.length_map] at hpairs
  rw [List.length_map, List.length_map] at hnodes
  have hlength : sites.length = host.nodes.length + host.adjacentPairs.length := by
    rw [← List.length_map (·.rule), hsites, List.length_append, List.length_map,
      List.length_replicate, hnodes, hpairs]
  refine ⟨G.finish d d.other q, ts, g, s, βs, ?_, fun fuel hfuel => hsettles.derive (by omega),
    fun p hp => ?_⟩
  · rw [Grammar.host_finish, Grammar.ids_finish]
    exact h
  · rw [Grammar.host_finish] at hp
    obtain ⟨t, ht, hgraph, hpasses, hfirings⟩ :=
      Grammar.finish_of_output d (Grammar.output_of_prune hprune hp)
    refine ⟨t, ht, hgraph, ?_, fun k => ?_⟩
    · have hsum := hsettles.passes
      change q.passes = 0 + sites.length + 1 at hsum
      omega
    · have hnames := congrArg (List.map Rule.name) hsites
      have hperm := h.perm_nodes.map fun q => q.2.name
      rw [List.map_map, List.map_map] at hperm
      rw [List.map_map, List.map_append, List.map_map, List.map_replicate, hpairs] at hnames
      have hsame : sites.map (·.rule.name) = _ := hnames
      rw [hfirings, hsettles.firings rfl k, hsame, List.count_append]
      have hcount := hperm.count_eq k
      exact congrArg (fun m => tally (m + _)) hcount

end TripleGrammar
