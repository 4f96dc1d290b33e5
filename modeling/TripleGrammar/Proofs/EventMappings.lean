import TripleGrammar.Proofs.QueueRules

/-!
# Event source mappings

From a graph of queues and functions, in which edges run from queues to functions, the axioms and
`triggers` derive a resource for each node, and an event source mapping and a role for each pair of
a queue and a function that an edge joins.
-/

namespace TripleGrammar

namespace Graph

/-- `g` consists of a resource for each node of the host, and of a mapping and a role for each pair
of adjacent nodes, with edges between these and the resources of the pair. The resource of a node
without edges has a default correspondence too. -/
structure Deploys (g host : Graph) (twin link : NodeId → NodeId)
    (mapping role : NodeId × NodeId → NodeId) : Prop where
  wellFormed : g.WellFormed
  nodes : g.nodes.Perm
    ((((host.nodes.filter fun n => host.isolated n.id).map fun n =>
          { id := link n.id, kind := n.kind ++ "Axiom", domain := .correspondence,
            isDefault := true }) ++
        host.nodes.map fun n => { id := twin n.id, kind := "Cfn" ++ n.kind, domain := .target }) ++
      host.adjacentPairs.flatMap fun q =>
        [{ id := mapping q, kind := "CfnEventSourceMapping", domain := .target },
         { id := role q, kind := "CfnRole", domain := .target }])
  edges : g.edges.Perm
    (((host.nodes.filter fun n => host.isolated n.id).map fun n =>
        { tail := link n.id, head := twin n.id }) ++
      host.adjacentPairs.flatMap fun q =>
        [{ tail := mapping q, head := twin q.1 }, { tail := mapping q, head := twin q.2 },
         { tail := twin q.2, head := role q }])

namespace Deploys

variable {g host : Graph} {twin link : NodeId → NodeId} {mapping role : NodeId × NodeId → NodeId}

lemma nodesIn_source (h : g.Deploys host twin link mapping role) : g.nodesIn .source = [] := by
  unfold nodesIn
  rw [← List.perm_nil]
  refine (h.nodes.filter _).trans (.of_eq ?_)
  simp [List.filter_map, List.filter_flatMap, Function.comp_def]

lemma perm_nodesIn_target (h : g.Deploys host twin link mapping role) :
    (g.nodesIn .target).Perm
      ((host.nodes.map fun n => { id := twin n.id, kind := "Cfn" ++ n.kind, domain := .target }) ++
        host.adjacentPairs.flatMap fun q =>
          [{ id := mapping q, kind := "CfnEventSourceMapping", domain := .target },
           { id := role q, kind := "CfnRole", domain := .target }]) := by
  unfold nodesIn
  refine (h.nodes.filter _).trans (.of_eq ?_)
  simp [List.filter_map, List.filter_flatMap, Function.comp_def]

end Deploys

end Graph

namespace Connected

variable {r : Rule} {host g f : Graph} {ids s s' : IdSupply} {ts : List Trace}
  {βs : List (NodeId → NodeId)}

lemma exists_deploys (h : Connected r .queue .function .source host ids ts g s βs f s')
    (hr : Rule.Draft.triggers.build = .ok r) :
    ∃ (p : Pruned) (twin link : NodeId → NodeId) (mapping role trigger : NodeId × NodeId → NodeId),
      f.prune .target = .ok p ∧
      p.graph.Deploys host twin link mapping role ∧
      (∀ n ∈ host.nodes, { id := link n.id, kind := n.kind ++ "Axiom", domain := .correspondence,
                           isDefault := true } ∈ f.nodes ∧
        f.Joins .source (link n.id) [n.id] ∧ f.Joins .target (link n.id) [twin n.id]) ∧
      (f.nodes.filter (·.kind == "Triggers")).Perm (host.adjacentPairs.map fun q =>
        { id := trigger q, kind := "Triggers", domain := .correspondence }) ∧
      ∀ q ∈ host.adjacentPairs, f.Joins .source (trigger q) [q.1, q.2] := by
  obtain ⟨β, hβ, hends⟩ := h.exists_bindings
  obtain ⟨p, twin, link, hp, hnodes, hedges, htwins, hlinks⟩ :=
    h.exists_output (Rule.covers_triggers hr) hβ hends
  have hkinds : ∀ n ∈ host.nodes, n.kind = "Queue" ∨ n.kind = "Function" :=
    fun n hn => (h.bipartite.nodes n hn).2
  have hplaced : ∀ q ∈ host.adjacentPairs,
      ((r.newEdges .source).filter (r.graph.edgeInside Domain.source.other)).map
        (·.placed (β q)) =
          [{ tail := β q ⟨6⟩, head := twin q.1 }, { tail := β q ⟨6⟩, head := twin q.2 },
           { tail := twin q.2, head := β q ⟨7⟩ }] := by
    intro q hq
    rw [Rule.placed_triggers hr, (htwins q hq).1, (htwins q hq).2]
  rw [List.map_congr_left fun n hn =>
      Pairing.linkOf_source (hkinds n (List.mem_of_mem_filter hn)) link,
    List.map_congr_left fun n hn => Pairing.twinOf_source (hkinds n hn) twin,
    List.flatMap_congr fun q _ => Rule.made_triggers hr (β q)] at hnodes
  rw [List.flatMap_congr hplaced] at hedges
  have hmem : { id := ⟨8⟩, kind := "Triggers", domain := .correspondence,
                action := some .create } ∈ r.newTemplates .source := by
    rw [Rule.newTemplates_triggers hr]
    decide
  have htriggers := h.perm_nodes_of_kind hβ Pairing.kindIn_ne_triggers
  rw [Rule.newLinks_triggers hr] at htriggers
  refine ⟨p, twin, link, fun q => β q ⟨6⟩, fun q => β q ⟨7⟩, fun q => β q ⟨8⟩, hp,
    ⟨Graph.wellFormed_of_prune hp, hnodes, hedges⟩, fun n hn => ?_, ?_,
    fun q hq => h.joins_pair hβ hends hmem rfl hq⟩
  · rw [← Pairing.linkOf_source (hkinds n hn)]
    exact hlinks n hn
  · rw [List.map_eq_flatMap]
    exact htriggers

end Connected

namespace Grammar

variable {G : Grammar} {queue function r : Rule} {host : Graph} {ids : IdSupply}

/-- The derivation from a graph of queues and functions succeeds if the ids last. The rule
`triggers` fires once for each pair of a queue and a function that an edge joins, however many edges
there are between the two, and what is returned consists of a resource for each node, and a mapping
and a role for each such pair. -/
theorem forward_deploys
    (hqueue : Rule.pairing "queue" "Queue" "CfnQueue" "QueueAxiom" = .ok queue)
    (hfunction : Rule.pairing "function" "Function" "CfnFunction" "FunctionAxiom" = .ok function)
    (hr : Rule.Draft.triggers.build = .ok r) (hrules : G.rules = [queue, function, r])
    (hpolicy : G.policy = {}) (hG : ∀ k, G.strategy k = .backtracking) (hhost : host.WellFormed)
    (hbipartite : host.Bipartite "Queue" "Function" .source)
    (hroom : ids.RoomBeyond host (2 * host.nodes.length + 3 * host.adjacentPairs.length)) :
    ∃ (o : Outcome) (t : Derivation) (twin link : NodeId → NodeId)
        (mapping role trigger : NodeId × NodeId → NodeId),
      (∀ fuel, host.nodes.length + host.adjacentPairs.length + 1 ≤ fuel →
        G.forward fuel host ids = some o) ∧
      o.result = .ok t ∧ t.firings.get? "triggers" = tally host.adjacentPairs.length ∧
      (o.host.nodes.filter (·.kind == "Triggers")).Perm (host.adjacentPairs.map fun q =>
        { id := trigger q, kind := "Triggers", domain := .correspondence }) ∧
      (∀ q ∈ host.adjacentPairs, o.host.Joins .source (trigger q) [q.1, q.2]) ∧
      t.graph.nodesIn .source = [] ∧ t.graph.Deploys host twin link mapping role ∧
      ∀ n ∈ host.nodes, { id := link n.id, kind := n.kind ++ "Axiom", domain := .correspondence,
                          isDefault := true } ∈ o.host.nodes ∧
        o.host.Joins .source (link n.id) [n.id] ∧ o.host.Joins .target (link n.id) [twin n.id] := by
  obtain rfl := Except.ok.inj (Pairing.queue.pairing_eq.symm.trans hqueue)
  obtain rfl := Except.ok.inj (Pairing.function.pairing_eq.symm.trans hfunction)
  have hprune : G.policy.prune = true := by rw [hpolicy]
  have hlength : (r.newTemplates .source).length = 3 := by rw [Rule.newTemplates_triggers hr]; rfl
  obtain ⟨o, ts, g, s, βs, h, hderive, hresult⟩ :=
    (Rule.connects_triggers hr).exists_derive (by decide) hhost hbipartite
      Pairing.queue_ne_function hG hrules hprune (by rw [hlength]; exact hroom)
  obtain ⟨p, twin, link, mapping, role, trigger, hp, hdeploys, hjoins, htriggers, hpairs⟩ :=
    h.exists_deploys hr
  obtain ⟨t, ht, hgraph, -, hfirings⟩ := hresult p hp
  rw [← hgraph] at hdeploys
  refine ⟨o, t, twin, link, mapping, role, trigger, hderive, ht, ?_, htriggers, hpairs,
    hdeploys.nodesIn_source, hdeploys, hjoins⟩
  have hzero : (host.nodes.map fun n => (Pairing.of .queue .function .source n.kind).name).count
      "triggers" = 0 := by
    rw [List.count_eq_zero, List.mem_map]
    rintro ⟨n, -, hname⟩
    exact Pairing.name_of_ne _ _ hname
  rw [hfirings, hzero, Rule.name_triggers hr, List.count_replicate_self, Nat.zero_add]

/-- Two queues at one function, the first of them twice, and a queue without edges. -/
theorem forward_deploys_queues :
    let host := (Graph.assemble
      [{ id := ⟨0⟩, kind := "Queue", domain := .source },
       { id := ⟨1⟩, kind := "Queue", domain := .source },
       { id := ⟨2⟩, kind := "Function", domain := .source },
       { id := ⟨3⟩, kind := "Queue", domain := .source }]
      [{ tail := ⟨0⟩, head := ⟨2⟩, kind := some "Triggers" }, { tail := ⟨0⟩, head := ⟨2⟩ },
       { tail := ⟨1⟩, head := ⟨2⟩, kind := some "Triggers" }]).after ∅
    let ids : IdSupply := { next := ⟨4⟩ }
    ∃ r, Rule.Draft.triggers.build = .ok r ∧
      let G : Grammar := { rules := [Pairing.queue.rule, Pairing.function.rule, r] }
      Rule.pairing "queue" "Queue" "CfnQueue" "QueueAxiom" = .ok Pairing.queue.rule ∧
        Rule.pairing "function" "Function" "CfnFunction" "FunctionAxiom" =
          .ok Pairing.function.rule ∧
        G.policy = {} ∧ (∀ k, G.strategy k = .backtracking) ∧ host.WellFormed ∧
        host.Bipartite "Queue" "Function" .source ∧
        ids.RoomBeyond host (2 * host.nodes.length + 3 * host.adjacentPairs.length) ∧
        ∃ o t, G.forward 7 host ids = some o ∧ o.result = .ok t ∧
          t.firings.get? "triggers" = some 2 ∧ (t.graph.nodesIn .target).length = 8 ∧
          t.graph.edges.length = 7 := by
  intro host ids
  obtain ⟨r, hr⟩ : ∃ r, Rule.Draft.triggers.build = .ok r :=
    Rule.Draft.exists_build (by decide +kernel)
  refine ⟨r, hr, ?_⟩
  intro G
  have hG : ∀ k, G.strategy k = .backtracking := fun _ => rfl
  have hhost : host.WellFormed :=
    Graph.assemble_keeps_wellFormed _ _ ∅ (Graph.wellFormed_bare none)
  have hbipartite : host.Bipartite "Queue" "Function" .source :=
    ⟨by decide +kernel, by decide +kernel, by decide +kernel⟩
  have hnodes : host.nodes.length = 4 := by decide +kernel
  have hpairs : host.adjacentPairs.length = 2 := by decide +kernel
  have hisolated : (host.nodes.filter fun n => host.isolated n.id).length = 1 := by decide +kernel
  have hroom : ids.RoomBeyond host
      (2 * host.nodes.length + 3 * host.adjacentPairs.length) := by decide +kernel
  obtain ⟨o, t, twin, link, mapping, role, trigger, hforward, ht, hfirings, -, -, -, hdeploys, -⟩ :=
    forward_deploys Pairing.queue.pairing_eq Pairing.function.pairing_eq hr rfl rfl hG hhost
      hbipartite hroom
  refine ⟨Pairing.queue.pairing_eq, Pairing.function.pairing_eq, rfl, hG, hhost, hbipartite,
    hroom, o, t, hforward 7 (by rw [hnodes, hpairs]), ht, ?_, ?_, ?_⟩
  · rw [hfirings, hpairs]
    rfl
  · rw [hdeploys.perm_nodesIn_target.length_eq, List.length_append, List.length_flatMap]
    simp [hnodes, hpairs]
  · rw [hdeploys.edges.length_eq, List.length_append, List.length_flatMap, List.length_map,
      hisolated]
    simp [hpairs]

end Grammar

end TripleGrammar
