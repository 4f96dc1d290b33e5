import TripleGrammar.Proofs.QueueRules
import TripleGrammar.Proofs.Renamings

/-!
# Mirrors

The rule `link` can be read in either direction. From a graph of queues and functions it derives,
with the axioms, a graph of resources that mirrors it: there is a resource for each node, and an
edge between resources for each edge. If no node is without edges nothing else is left, so the
grammar can be read backwards on what it has derived, and a mirror of the mirror is the graph itself
up to ids.
-/

namespace TripleGrammar

namespace Graph

variable {g h host : Graph} {d : Domain} {σ τ : NodeId → NodeId} {n : Node}

/-- A graph of queues and functions, or one of their resources, in which all edges have one type, no
two of them join the same nodes, and no node is without edges. -/
structure Wired (g : Graph) (d : Domain) : Prop extends
    g.Bipartite (Pairing.queue.kindIn d) (Pairing.function.kindIn d) d where
  kinds : ∀ e ∈ g.edges, e.kind = some "Triggers"
  nodup : (g.edges.map fun e => (e.tail, e.head)).Nodup
  ends : ∀ n ∈ g.nodes, ∃ e ∈ g.edges, e.tail = n.id ∨ e.head = n.id

/-- A graph that lies in one domain is isomorphic to its projection. -/
lemma renames_project (hg : g.WellFormed) (hplain : ∀ n ∈ g.nodes, n.domain = d) :
    (g.project d).Renames g id := by
  have hedges : (g.project d).edges = g.edges := by
    rw [edges_project hg, List.filter_eq_self]
    intro e he
    unfold edgeInside
    obtain ⟨n, hn, hid⟩ := List.mem_map.mp (hg.tail_mem e he)
    obtain ⟨m, hm, hid'⟩ := List.mem_map.mp (hg.head_mem e he)
    rw [← hid, ← hid', hg.domainOf?_of_mem hn, hg.domainOf?_of_mem hm, hplain n hn, hplain m hm]
    simp
  refine renames_of_perm (isPart_project hg d).wellFormed
    ((perm_nodes_project hg hplain).symm.map _) ?_
  rw [hedges]
  exact .refl _

lemma Wired.adjacentPairs_eq (h : g.Wired d) :
    g.adjacentPairs = g.edges.map fun e => (e.tail, e.head) := h.nodup.dedup

lemma Wired.filter_isolated (h : g.Wired d) : g.nodes.filter (fun n => g.isolated n.id) = [] := by
  rw [List.filter_eq_nil_iff]
  intro n hn
  rw [isolated_eq_false_iff.mpr (h.ends n hn)]
  exact Bool.false_ne_true

/-- `g` has a resource for each node of the host, or the other way round, and an edge for each of
its edges. -/
structure Mirrors (g host : Graph) (d : Domain) (σ : NodeId → NodeId) : Prop where
  wellFormed : g.WellFormed
  nodes : g.nodes.Perm (host.nodes.map (Pairing.twinOf .queue .function d σ))
  edges : g.edges.Perm
    (host.edges.map fun e => { tail := σ e.tail, head := σ e.head, kind := some "Triggers" })

namespace Mirrors

variable (hm : g.Mirrors host d σ)
include hm

lemma twinOf_mem (hn : n ∈ host.nodes) : Pairing.twinOf .queue .function d σ n ∈ g.nodes :=
  hm.nodes.mem_iff.mpr (List.mem_map_of_mem hn)

lemma edge_mem {e : Edge} (he : e ∈ host.edges) :
    { tail := σ e.tail, head := σ e.head, kind := some "Triggers" } ∈ g.edges :=
  hm.edges.mem_iff.mpr (List.mem_map.mpr ⟨e, he, rfl⟩)

lemma inj_on {id id' : NodeId} (hid : id ∈ host.nodes.map (·.id))
    (hid' : id' ∈ host.nodes.map (·.id)) (hσ : σ id = σ id') : id = id' := by
  obtain ⟨n, hn, rfl⟩ := List.mem_map.mp hid
  obtain ⟨m, hm', rfl⟩ := List.mem_map.mp hid'
  have hnodup := (hm.nodes.map (·.id)).nodup_iff.mp hm.wellFormed.nodup
  rw [List.map_map] at hnodup
  rw [List.inj_on_of_nodup_map hnodup hn hm' hσ]

/-- A mirror is of the same form as what it mirrors. -/
lemma wired (hhost : host.WellFormed) (hw : host.Wired d) : g.Wired d.other := by
  refine ⟨⟨fun m hm' => ?_, fun e' he' => ?_, fun e' he' => ?_⟩, fun e' he' => ?_, ?_,
    fun m hm' => ?_⟩
  · obtain ⟨n, hn, rfl⟩ := List.mem_map.mp (hm.nodes.mem_iff.mp hm')
    refine ⟨rfl, ?_⟩
    rcases (hw.nodes n hn).2 with hk | hk
    · exact Or.inl (by rw [Pairing.twinOf, hk, Pairing.of_queue])
    · exact Or.inr (by rw [Pairing.twinOf, hk, Pairing.of_function])
  · obtain ⟨e, he, rfl⟩ := List.mem_map.mp (hm.edges.mem_iff.mp he')
    obtain ⟨n, hn, hid, hk⟩ := hw.tails e he
    exact ⟨_, hm.twinOf_mem hn, congrArg σ hid, by rw [Pairing.twinOf, hk, Pairing.of_queue]⟩
  · obtain ⟨e, he, rfl⟩ := List.mem_map.mp (hm.edges.mem_iff.mp he')
    obtain ⟨n, hn, hid, hk⟩ := hw.heads e he
    exact ⟨_, hm.twinOf_mem hn, congrArg σ hid, by rw [Pairing.twinOf, hk, Pairing.of_function]⟩
  · obtain ⟨e, -, rfl⟩ := List.mem_map.mp (hm.edges.mem_iff.mp he')
    rfl
  · -- two edges join the same nodes only if those do that they mirror
    have hperm := hm.edges.map fun e => (e.tail, e.head)
    rw [List.map_map] at hperm
    refine hperm.nodup_iff.mpr (List.Nodup.map_on ?_ (List.Nodup.of_map _ hw.nodup))
    intro e he e' he' heq
    obtain ⟨ht, hh⟩ := Prod.mk.inj heq
    refine List.inj_on_of_nodup_map hw.nodup he he' (Prod.ext ?_ ?_)
    · exact hm.inj_on (hhost.tail_mem e he) (hhost.tail_mem e' he') ht
    · exact hm.inj_on (hhost.head_mem e he) (hhost.head_mem e' he') hh
  · obtain ⟨n, hn, rfl⟩ := List.mem_map.mp (hm.nodes.mem_iff.mp hm')
    obtain ⟨e, he, hend⟩ := hw.ends n hn
    exact ⟨_, hm.edge_mem he, hend.imp (congrArg σ) (congrArg σ)⟩

/-- What mirrors a mirror is the same graph, but for the ids. -/
lemma renames (hh : h.Mirrors g d.other τ) (hhost : host.WellFormed) (hd : d ≠ .correspondence)
    (hw : host.Wired d) : h.Renames host (τ ∘ σ) := by
  refine renames_of_perm hh.wellFormed ?_ ?_
  · have hnodes := (hh.nodes.trans (hm.nodes.map _)).map fun n =>
      (n.id, n.kind, n.domain, n.isDefault)
    rw [List.map_map, List.map_map] at hnodes
    refine (List.Perm.of_eq (List.map_congr_left fun n hn => ?_)).trans hnodes.symm
    obtain ⟨hdomain, hkind⟩ := hw.nodes n hn
    have hflag : n.isDefault = false := by
      rw [← Bool.not_eq_true]
      exact fun hflag => hd (hdomain.symm.trans (hhost.default_mem n hn hflag))
    have hback : (Pairing.of .queue .function d.other
        ((Pairing.of .queue .function d n.kind).kindIn d.other)).kindIn d = n.kind := by
      rcases hkind with hk | hk
      · rw [hk, Pairing.of_queue, Pairing.of_queue]
      · rw [hk, Pairing.of_function, Pairing.of_function]
    simp only [Function.comp_apply, Pairing.twinOf, Domain.other_other, hback, hdomain, hflag]
  · have hedges := (hh.edges.trans (hm.edges.map _)).map fun e => (e.tail, e.head, e.kind)
    rw [List.map_map, List.map_map] at hedges
    refine (List.Perm.of_eq (List.map_congr_left fun e he => ?_)).trans hedges.symm
    simp only [Function.comp_apply, hw.kinds e he]

end Mirrors

end Graph

/-! ### Derivations -/

namespace Connected

variable {r : Rule} {d : Domain} {host g f : Graph} {ids s s' : IdSupply} {ts : List Trace}
  {βs : List (NodeId → NodeId)}

/-- What is left of a host without isolated nodes is its mirror. -/
lemma exists_mirrors (h : Connected r .queue .function d host ids ts g s βs f s')
    (hr : Rule.Draft.link.build = .ok r) (hw : host.Wired d) :
    ∃ p σ, f.prune d.other = .ok p ∧ p.graph.Mirrors host d σ := by
  obtain ⟨β, hβ, hends⟩ := h.exists_bindings
  obtain ⟨p, twin, link, hp, hnodes, hedges, htwins, -⟩ :=
    h.exists_output (Rule.covers_link hr h.reads) hβ hends
  refine ⟨p, twin, hp, Graph.wellFormed_of_prune hp, ?_, ?_⟩
  · -- the rule creates nothing but a link, which is not in the other domain
    have hmade : (r.newTemplates d).filter (·.domain == d.other) = [] := by
      rw [Rule.newTemplates_link hr h.reads]
      have hne := (Domain.other_ne_correspondence h.reads).symm
      simp [hne]
    have hnone : (host.adjacentPairs.flatMap fun q => (([] : List Node).map (·.made (β q)))) = [] :=
      List.flatMap_eq_nil_iff.mpr fun _ _ => rfl
    rw [hw.filter_isolated, hmade, hnone, List.append_nil] at hnodes
    exact hnodes
  · have hplaced : ∀ q ∈ host.adjacentPairs,
        ((r.newEdges d).filter (r.graph.edgeInside d.other)).map (·.placed (β q)) =
          [{ tail := twin q.1, head := twin q.2, kind := some "Triggers" }] := by
      intro q hq
      rw [Rule.placed_link hr h.reads, (htwins q hq).1, (htwins q hq).2]
    rw [List.flatMap_congr hplaced, ← List.map_eq_flatMap, hw.filter_isolated,
      hw.adjacentPairs_eq, List.map_map] at hedges
    exact hedges

end Connected

namespace Grammar

variable {G : Grammar} {queue function r : Rule} {d : Domain} {host : Graph} {ids : IdSupply}

/-- The derivation from such a graph ends with its mirror, and the ids that are still to be given
out are not in use there. -/
lemma exists_mirror (hr : Rule.Draft.link.build = .ok r)
    (hrules : G.rules = [Pairing.queue.rule, Pairing.function.rule, r])
    (hprune : G.policy.prune = true) (hG : ∀ k, G.strategy k = .backtracking)
    (hd : d ≠ .correspondence) (hhost : host.WellFormed) (hw : host.Wired d)
    (hroom : ids.RoomBeyond host (2 * host.nodes.length + host.edges.length)) :
    ∃ o t σ, (∀ fuel, host.nodes.length + host.edges.length + 1 ≤ fuel →
        G.derive d d.other fuel host ids = some o) ∧
      o.result = .ok t ∧ t.graph.Mirrors host d σ ∧ o.ids.Beyond t.graph ∧
      o.ids.next.raw.toNat = ids.next.raw.toNat + 2 * host.nodes.length + host.edges.length := by
  have hnew : (r.newTemplates d).length = 1 := by rw [Rule.newTemplates_link hr hd]; rfl
  have hpairs : host.adjacentPairs.length = host.edges.length := by
    rw [hw.adjacentPairs_eq, List.length_map]
  obtain ⟨o, ts, g, s, βs, h, hderive, hresult⟩ :=
    (Rule.connects_link hr hd).exists_derive hd hhost hw.toBipartite Pairing.queue_ne_function hG
      hrules hprune (by rw [hnew, hpairs, Nat.one_mul]; exact hroom)
  obtain ⟨p, σ, hp, hmirrors⟩ := h.exists_mirrors hr hw
  obtain ⟨t, ht, hgraph, -⟩ := hresult p hp
  have hlast := h.beyond_of_prune (Rule.covers_link hr hd) hp
  rw [← hgraph] at hmirrors hlast
  rw [hpairs] at hderive
  refine ⟨o, t, σ, hderive, ht, hmirrors, hlast, ?_⟩
  have hlasts := hroom.lasts
  rw [h.ids_eq, hnew, hpairs, IdSupply.toNat_next_skip, Nat.mod_eq_of_lt (by omega)]
  omega

/-- A graph of queues and functions comes back from the resources that are derived from it, if no
node of it is without edges and the ids last. -/
theorem backward_restores_wired
    (hqueue : Rule.pairing "queue" "Queue" "CfnQueue" "QueueAxiom" = .ok queue)
    (hfunction : Rule.pairing "function" "Function" "CfnFunction" "FunctionAxiom" = .ok function)
    (hr : Rule.Draft.link.build = .ok r) (hrules : G.rules = [queue, function, r])
    (hpolicy : G.policy = {}) (hG : ∀ k, G.strategy k = .backtracking) (hhost : host.WellFormed)
    (hw : host.Wired .source)
    (hroom : ids.RoomBeyond host (2 * (2 * host.nodes.length + host.edges.length))) :
    ∃ o t o' t', (∀ fuel, host.nodes.length + host.edges.length + 1 ≤ fuel →
        G.forward fuel host ids = some o ∧ G.backward fuel t.graph o.ids = some o') ∧
      o.result = .ok t ∧ o'.result = .ok t' ∧
      (t'.graph.project .source).isIsomorphicTo host = true := by
  obtain rfl := Except.ok.inj (Pairing.queue.pairing_eq.symm.trans hqueue)
  obtain rfl := Except.ok.inj (Pairing.function.pairing_eq.symm.trans hfunction)
  have hprune : G.policy.prune = true := by rw [hpolicy]
  have hd : Domain.source ≠ .correspondence := by decide
  have hlasts := hroom.lasts
  obtain ⟨o, t, σ, hforward, ht, hm, hbeyond', hnext⟩ :=
    exists_mirror hr hrules hprune hG hd hhost hw (hroom.mono (by omega))
  have hw' : t.graph.Wired .target := hm.wired hhost hw
  have hnodes := hm.nodes.length_eq
  have hedges := hm.edges.length_eq
  rw [List.length_map] at hnodes hedges
  obtain ⟨o', t', τ, hbackward, ht', hm', -, -⟩ :=
    exists_mirror hr hrules hprune hG (by decide) hm.wellFormed hw' ⟨hbeyond', by omega⟩
  rw [hnodes, hedges] at hbackward
  refine ⟨o, t, o', t', fun fuel hfuel => ⟨hforward fuel hfuel, hbackward fuel hfuel⟩, ht, ht', ?_⟩
  have hplain : ∀ n ∈ t'.graph.nodes, n.domain = .source :=
    fun n hn => ((hm'.wired hm.wellFormed hw').nodes n hn).1
  have hproject := Graph.isPart_project hm'.wellFormed .source
  rw [Graph.isIsomorphicTo_iff hproject.wellFormed hhost]
  exact ⟨_, (Graph.renames_project hm'.wellFormed hplain).trans (hm.renames hm' hhost hd hw)⟩

/-- Two queues at one function, and one of them at another function too. -/
theorem backward_restores_wired_queues :
    let host := (Graph.assemble
      [{ id := ⟨0⟩, kind := "Function", domain := .source },
       { id := ⟨1⟩, kind := "Queue", domain := .source },
       { id := ⟨2⟩, kind := "Queue", domain := .source },
       { id := ⟨3⟩, kind := "Function", domain := .source }]
      [{ tail := ⟨1⟩, head := ⟨0⟩, kind := some "Triggers" },
       { tail := ⟨2⟩, head := ⟨0⟩, kind := some "Triggers" },
       { tail := ⟨2⟩, head := ⟨3⟩, kind := some "Triggers" }]).after ∅
    let ids : IdSupply := { next := ⟨4⟩ }
    ∃ r, Rule.Draft.link.build = .ok r ∧
      let G : Grammar := { rules := [Pairing.queue.rule, Pairing.function.rule, r] }
      Rule.pairing "queue" "Queue" "CfnQueue" "QueueAxiom" = .ok Pairing.queue.rule ∧
        Rule.pairing "function" "Function" "CfnFunction" "FunctionAxiom" =
          .ok Pairing.function.rule ∧
        G.policy = {} ∧ (∀ k, G.strategy k = .backtracking) ∧ host.WellFormed ∧
        host.Wired .source ∧
        ids.RoomBeyond host (2 * (2 * host.nodes.length + host.edges.length)) ∧
        ∃ o t o' t', G.forward 8 host ids = some o ∧ o.result = .ok t ∧
          G.backward 8 t.graph o.ids = some o' ∧ o'.result = .ok t' ∧
          (t'.graph.project .source).isIsomorphicTo host = true := by
  intro host ids
  obtain ⟨r, hr⟩ : ∃ r, Rule.Draft.link.build = .ok r :=
    Rule.Draft.exists_build (by decide +kernel)
  refine ⟨r, hr, ?_⟩
  intro G
  have hG : ∀ k, G.strategy k = .backtracking := fun _ => rfl
  have hhost : host.WellFormed :=
    Graph.assemble_keeps_wellFormed _ _ ∅ (Graph.wellFormed_bare none)
  have hw : host.Wired .source :=
    ⟨⟨by decide +kernel, by decide +kernel, by decide +kernel⟩, by decide +kernel,
      by decide +kernel, by decide +kernel⟩
  have hnodes : host.nodes.length = 4 := by decide +kernel
  have hedges : host.edges.length = 3 := by decide +kernel
  have hroom : ids.RoomBeyond host (2 * (2 * host.nodes.length + host.edges.length)) := by
    decide +kernel
  obtain ⟨o, t, o', t', hderive, ht, ht', hiso⟩ :=
    backward_restores_wired Pairing.queue.pairing_eq Pairing.function.pairing_eq hr rfl rfl hG hhost
      hw hroom
  obtain ⟨hforward, hbackward⟩ := hderive 8 (by rw [hnodes, hedges])
  exact ⟨Pairing.queue.pairing_eq, Pairing.function.pairing_eq, rfl, hG, hhost, hw, hroom, o, t, o',
    t', hforward, ht, hbackward, ht', hiso⟩

end Grammar

end TripleGrammar
