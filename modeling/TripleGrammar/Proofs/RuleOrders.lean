import TripleGrammar.Proofs.OpenNodes
import TripleGrammar.Proofs.RenamedPrunings
import TripleGrammar.Proofs.RoundTrips

/-!
# The order of axioms

Axioms whose links differ in type do not get in each other's way, so a grammar of axioms derives the
same from a host in whatever order they stand. Only the ids of what is new depend on the order. The
default correspondence at which pruning fails, if it does, is one of the host and so has the same
id.
-/

namespace TripleGrammar

namespace Pairing

variable {axioms axioms' : List Pairing}

lemma perm_openPairs_of_perm (hperm : axioms.Perm axioms') (d : Domain) (host : Graph) :
    (openPairs axioms d host).Perm (openPairs axioms' d host) :=
  hperm.flatMap_right _

end Pairing

namespace Traces

variable {axioms axioms' : List Pairing} {d : Domain} {host g g' : Graph}
  {ids ids' s s' : IdSupply} {ts ts' : List Trace}

/-- Hosts that have been extended by traces of the same axioms at the same nodes are isomorphic. -/
theorem exists_renames (h : Traces axioms d host ids ts g s)
    (h' : Traces axioms' d host ids' ts' g' s') (hhost : host.WellFormed)
    (hkeys : (ts'.map fun t => (t.rule, t.node)).Perm (ts.map fun t => (t.rule, t.node))) :
    ∃ σ, g'.Renames g σ := by
  obtain ⟨l, hfst, hsnd, hsame⟩ := Graph.exists_pairs_of_perm hkeys
  let ns : List (Node × Node) := host.nodes.map (fun n => (n, n)) ++
    l.flatMap fun p => [(p.1.linkNode, p.2.linkNode), (p.1.twinNode d, p.2.twinNode d)]
  let es : List (Edge × Edge) := host.edges.map (fun e => (e, e)) ++
    l.flatMap fun p => [(p.1.edge d .source, p.2.edge d .source),
      (p.1.edge d .target, p.2.edge d .target)]
  have hold : ∀ id, id ∈ host.nodes.map (·.id) → ∃ q ∈ ns, q.1.id = id ∧ q.2.id = id := by
    intro id hid
    obtain ⟨n, hn, rfl⟩ := List.mem_map.mp hid
    exact ⟨(n, n), List.mem_append_left _ (List.mem_map_of_mem hn), rfl, rfl⟩
  have hlink : ∀ p ∈ l, (p.1.linkNode, p.2.linkNode) ∈ ns := fun p hp =>
    List.mem_append_right _ (List.mem_flatMap.mpr ⟨p, hp, List.mem_cons_self⟩)
  have htwin : ∀ p ∈ l, (p.1.twinNode d, p.2.twinNode d) ∈ ns := fun p hp =>
    List.mem_append_right _
      (List.mem_flatMap.mpr ⟨p, hp, List.mem_cons_of_mem _ List.mem_cons_self⟩)
  -- the node that is read is one of the host, and the same on both sides
  have hend : ∀ p ∈ l, ∀ x, ∃ q ∈ ns, q.1.id = p.1.endIn d x ∧ q.2.id = p.2.endIn d x := by
    intro p hp x
    have hnode : p.1.node = p.2.node := congrArg Prod.snd (hsame p hp)
    unfold Trace.endIn
    split
    · obtain ⟨-, n, hn, hid, -⟩ := h.reads p.2 (hsnd.mem_iff.mp (List.mem_map_of_mem hp))
      obtain ⟨q, hq, hq₁, hq₂⟩ := hold n.id (List.mem_map_of_mem hn)
      exact ⟨q, hq, by rw [hq₁, hid, hnode], by rw [hq₂, hid]⟩
    · exact ⟨_, htwin p hp, rfl, rfl⟩
  refine Graph.exists_renames_of_pairs h'.wellFormed h.wellFormed ns es
    ?_ ?_ ?_ ?_ ?_ ?_
  · rw [h'.nodes, ← hfst, List.flatMap_map, List.map_append, List.map_map, List.map_flatMap]
    exact .of_eq (by simp [Function.comp_def, Trace.nodes])
  · have hnew := hsnd.symm.flatMap_right (·.nodes d)
    rw [List.flatMap_map] at hnew
    rw [h.nodes, List.map_append, List.map_map, List.map_flatMap]
    refine List.Perm.append (.of_eq ?_) (hnew.trans (.of_eq ?_)) <;>
      simp [Function.comp_def, Trace.nodes]
  · rw [h'.edges, ← hfst, List.flatMap_map, List.map_append, List.map_map, List.map_flatMap]
    exact .of_eq (by simp [Function.comp_def, Trace.edges])
  · have hnew := hsnd.symm.flatMap_right (·.edges d)
    rw [List.flatMap_map] at hnew
    rw [h.edges, List.map_append, List.map_map, List.map_flatMap]
    refine List.Perm.append (.of_eq ?_) (hnew.trans (.of_eq ?_)) <;>
      simp [Function.comp_def, Trace.edges]
  · intro q hq
    rcases List.mem_append.mp hq with hq | hq
    · obtain ⟨n, -, rfl⟩ := List.mem_map.mp hq
      exact ⟨rfl, rfl, rfl⟩
    · obtain ⟨p, hp, hq⟩ := List.mem_flatMap.mp hq
      have hrule : p.1.rule = p.2.rule := congrArg Prod.fst (hsame p hp)
      rcases List.mem_pair.mp hq with rfl | rfl <;> simp [Trace.linkNode, Trace.twinNode, hrule]
  · intro q hq
    rcases List.mem_append.mp hq with hq | hq
    · obtain ⟨e, he, rfl⟩ := List.mem_map.mp hq
      exact ⟨rfl, hold _ (hhost.tail_mem e he), hold _ (hhost.head_mem e he)⟩
    · obtain ⟨p, hp, hq⟩ := List.mem_flatMap.mp hq
      rcases List.mem_pair.mp hq with rfl | rfl <;>
        exact ⟨rfl, ⟨_, hlink p hp, rfl, rfl⟩, hend p hp _⟩

/-- Pruning such hosts fails at the same default correspondence, or it leaves isomorphic graphs. -/
theorem prune_cases (h : Traces axioms d host ids ts g s)
    (h' : Traces axioms' d host ids' ts' g' s') (hhost : host.WellFormed)
    (hd : d ≠ .correspondence)
    (hkeys : (ts'.map fun t => (t.rule, t.node)).Perm (ts.map fun t => (t.rule, t.node)))
    (x : Domain) :
    (∃ c sources targets, g.prune x = .error (.defaultArity c sources targets) ∧
        g'.prune x = .error (.defaultArity c sources targets)) ∨
      ∃ p p', g.prune x = .ok p ∧ g'.prune x = .ok p' ∧
        p'.graph.isIsomorphicTo p.graph = true := by
  have hfind := h.find?_unpaired_eq hd hhost
  have hfind' := h'.find?_unpaired_eq hd hhost
  cases hfirst : host.nodes.find? host.unpaired with
  | some c =>
    rw [hfirst] at hfind hfind'
    have hc := List.mem_of_find?_eq_some hfirst
    have herror := Graph.prune_eq_error h.wellFormed (d := x) hfind
    have herror' := Graph.prune_eq_error h'.wellFormed (d := x) hfind'
    rw [h.linkedCount_eq hhost hc, h.linkedCount_eq hhost hc] at herror
    rw [h'.linkedCount_eq hhost hc, h'.linkedCount_eq hhost hc] at herror'
    exact Or.inl ⟨_, _, _, herror, herror'⟩
  | none =>
    rw [hfirst] at hfind hfind'
    obtain ⟨p, hp, -⟩ := Graph.exists_prune h.wellFormed (d := x) hfind
    obtain ⟨p', hp', -⟩ := Graph.exists_prune h'.wellFormed (d := x) hfind'
    obtain ⟨σ, hσ⟩ := h.exists_renames h' hhost hkeys
    refine Or.inr ⟨p, p', hp, hp', ?_⟩
    rw [Graph.isIsomorphicTo_iff (Graph.wellFormed_of_prune hp') (Graph.wellFormed_of_prune hp)]
    exact ⟨σ, hσ.prune h'.wellFormed h.wellFormed hp hp'⟩

end Traces

namespace Grammar

variable {G G' : Grammar} {axioms axioms' : List Pairing} {d : Domain} {host : Graph}
  {ids : IdSupply}

/-- Two grammars of the same axioms in two orders, with one policy, derive from a host either
isomorphic graphs, with the same firings in as many passes, or both fail at the same default
correspondence. The hosts that they leave are isomorphic too. -/
theorem derive_perm_axioms
    (hrules : List.Forall₂
      (fun a r => Rule.pairing a.name a.sourceKind a.targetKind a.linkKind = .ok r) axioms G.rules)
    (hrules' : List.Forall₂
      (fun a r => Rule.pairing a.name a.sourceKind a.targetKind a.linkKind = .ok r)
      axioms' G'.rules)
    (hperm : axioms.Perm axioms') (hlinks : (axioms.map (·.linkKind)).Nodup)
    (hpolicy : G'.policy = G.policy) (hG : ∀ k, G.strategy k = .backtracking)
    (hG' : ∀ k, G'.strategy k = .backtracking) (hd : d ≠ .correspondence)
    (hhost : host.WellFormed)
    (hroom : ids.RoomBeyond host (2 * (Pairing.openPairs axioms d host).length)) :
    ∃ o o', (∀ fuel, (Pairing.openPairs axioms d host).length + 1 ≤ fuel →
        G.derive d d.other fuel host ids = some o ∧
        G'.derive d d.other fuel host ids = some o') ∧
      o'.host.isIsomorphicTo o.host = true ∧
      ((∃ t t', o.result = .ok t ∧ o'.result = .ok t' ∧ t'.firings = t.firings ∧
          t'.passes = t.passes ∧ t'.graph.isIsomorphicTo t.graph = true) ∨
        ∃ c sources targets, o.result = .error (.defaultArity c sources targets) ∧
          o'.result = .error (.defaultArity c sources targets)) := by
  have hpairs := Pairing.perm_openPairs_of_perm hperm d host
  have hlinks' : (axioms'.map (·.linkKind)).Nodup := (hperm.map _).nodup_iff.mp hlinks
  obtain ⟨sites, ts, q, hsettles, h, hlength, hkeys, hcount⟩ :=
    Traces.exists_settles_openPairs hG hhost hd hroom (Pairing.rules_eq hrules) hlinks
  obtain ⟨sites', ts', q', hsettles', h', hlength', hkeys', hcount'⟩ :=
    Traces.exists_settles_openPairs hG' hhost hd (by rwa [← hpairs.length_eq])
      (Pairing.rules_eq hrules') hlinks'
  rw [← hpairs.length_eq] at hlength'
  have hkeys : (ts'.map fun t => (t.rule, t.node)).Perm (ts.map fun t => (t.rule, t.node)) :=
    hkeys'.trans (hpairs.symm.trans hkeys.symm)
  have hhosts : q'.host.isIsomorphicTo q.host = true :=
    (Graph.isIsomorphicTo_iff h'.wellFormed h.wellFormed).mpr (h.exists_renames h' hhost hkeys)
  have hfirings : q'.firings = q.firings := by
    apply SortedMap.ext_get?
    intro k
    rw [hcount, hcount', (hpairs.map _).count_eq]
  have hpasses : q'.passes = q.passes := by
    rw [hsettles.passes, hsettles'.passes, hlength, hlength']
  refine ⟨G.finish d d.other q, G'.finish d d.other q',
    fun fuel hfuel => ⟨hsettles.derive (by omega), hsettles'.derive (by omega)⟩, ?_, ?_⟩
  · rw [host_finish, host_finish]
    exact hhosts
  -- it is enough that the outputs are isomorphic or fail alike
  have hfinish : ∀ g g' events events', G.output q.host d.other = .ok (g, events) →
      G'.output q'.host d.other = .ok (g', events') → g'.isIsomorphicTo g = true →
      ∃ t t', (G.finish d d.other q).result = .ok t ∧ (G'.finish d d.other q').result = .ok t' ∧
        t'.firings = t.firings ∧ t'.passes = t.passes ∧ t'.graph.isIsomorphicTo t.graph = true := by
    intro g g' events events' hg hg' hiso
    obtain ⟨t, ht, hgraph, htpasses, htfirings⟩ := finish_of_output d hg
    obtain ⟨t', ht', hgraph', htpasses', htfirings'⟩ := finish_of_output d hg'
    exact ⟨t, t', ht, ht', by rw [htfirings, htfirings', hfirings],
      by rw [htpasses, htpasses', hpasses], by rwa [hgraph, hgraph']⟩
  cases hprune : G.policy.prune with
  | false =>
    exact Or.inl (hfinish _ _ _ _ (output_of_not_prune hprune q.host d.other)
      (output_of_not_prune (by rw [hpolicy, hprune]) q'.host d.other) hhosts)
  | true =>
    have hprune' : G'.policy.prune = true := by rw [hpolicy, hprune]
    rcases h.prune_cases h' hhost hd hkeys d.other with
      ⟨c, sources, targets, herror, herror'⟩ | ⟨p, p', hp, hp', hiso⟩
    · exact Or.inr ⟨c, sources, targets,
        finish_of_output_error (output_of_prune_error hprune herror),
        finish_of_output_error (output_of_prune_error hprune' herror')⟩
    · exact Or.inl (hfinish _ _ _ _ (output_of_prune hprune hp) (output_of_prune hprune' hp') hiso)

/-- Two queues and a topic, with the axioms in both orders. -/
theorem derive_perm_axioms_topics :
    let queue : Pairing :=
      { name := "queue", sourceKind := "Queue", targetKind := "CfnQueue", linkKind := "QueueAxiom" }
    let topic : Pairing :=
      { name := "topic", sourceKind := "Topic", targetKind := "CfnTopic", linkKind := "TopicAxiom" }
    let G : Grammar := { rules := [queue.rule, topic.rule] }
    let G' : Grammar := { rules := [topic.rule, queue.rule] }
    let host := (Graph.assemble
      [{ id := ⟨0⟩, kind := "Queue", domain := .source },
       { id := ⟨1⟩, kind := "Queue", domain := .source },
       { id := ⟨2⟩, kind := "Topic", domain := .source }]
      [{ tail := ⟨0⟩, head := ⟨2⟩ }]).after ∅
    let ids : IdSupply := { next := ⟨3⟩ }
    List.Forall₂ (fun (a : Pairing) r =>
        Rule.pairing a.name a.sourceKind a.targetKind a.linkKind = .ok r) [queue, topic] G.rules ∧
      List.Forall₂ (fun (a : Pairing) r =>
        Rule.pairing a.name a.sourceKind a.targetKind a.linkKind = .ok r) [topic, queue] G'.rules ∧
      [queue, topic].Perm [topic, queue] ∧ ([queue, topic].map (·.linkKind)).Nodup ∧
      G'.policy = G.policy ∧ (∀ k, G.strategy k = .backtracking) ∧
      (∀ k, G'.strategy k = .backtracking) ∧ Domain.source ≠ .correspondence ∧
      host.WellFormed ∧
      ids.RoomBeyond host (2 * (Pairing.openPairs [queue, topic] .source host).length) ∧
      ∃ o o', G.forward 4 host ids = some o ∧ G'.forward 4 host ids = some o' ∧
        o'.host.isIsomorphicTo o.host = true := by
  intro queue topic G G' host ids
  have hrules : List.Forall₂ (fun (a : Pairing) r =>
      Rule.pairing a.name a.sourceKind a.targetKind a.linkKind = .ok r) [queue, topic] G.rules :=
    .cons (Pairing.pairing_eq _) (.cons (Pairing.pairing_eq _) .nil)
  have hrules' : List.Forall₂ (fun (a : Pairing) r =>
      Rule.pairing a.name a.sourceKind a.targetKind a.linkKind = .ok r) [topic, queue] G'.rules :=
    .cons (Pairing.pairing_eq _) (.cons (Pairing.pairing_eq _) .nil)
  have hperm : [queue, topic].Perm [topic, queue] := List.Perm.swap _ _ _
  have hlinks : ([queue, topic].map (·.linkKind)).Nodup := by decide
  have hG : ∀ k, G.strategy k = .backtracking := fun _ => rfl
  have hG' : ∀ k, G'.strategy k = .backtracking := fun _ => rfl
  have hd : Domain.source ≠ .correspondence := by decide
  have hhost : host.WellFormed :=
    Graph.assemble_keeps_wellFormed _ _ ∅ (Graph.wellFormed_bare none)
  have hpairs : (Pairing.openPairs [queue, topic] .source host).length = 3 := by decide +kernel
  have hroom : ids.RoomBeyond host
      (2 * (Pairing.openPairs [queue, topic] .source host).length) := by decide +kernel
  obtain ⟨o, o', hderive, hiso, -⟩ :=
    derive_perm_axioms hrules hrules' hperm hlinks rfl hG hG' hd hhost hroom
  obtain ⟨ho, ho'⟩ := hderive 4 (by rw [hpairs])
  exact ⟨hrules, hrules', hperm, hlinks, rfl, hG, hG', hd, hhost, hroom, o, o', ho, ho',
    hiso⟩

end Grammar

end TripleGrammar
