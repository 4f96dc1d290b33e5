import TripleGrammar.Proofs.OpenNodes

/-!
# Reading the twins

On the host that axioms leave, each twin has the link that it was made with. Where types tell the
twins of the axioms apart, no axiom finds anything to do there when it is read from the side of the
twins, although none of them has fired in that direction.
-/

namespace TripleGrammar

namespace Traces

variable {axioms : List Pairing} {d : Domain} {host g : Graph} {ids s : IdSupply}
  {ts : List Trace} {a : Pairing} {id : NodeId}

/-- The twin of a trace is of the type of no axiom but its own, which has linked it. -/
lemma not_reads_other (h : Traces axioms d host ids ts g s) (hhost : host.WellFormed)
    (hd : d ≠ .correspondence) (hnone : ∀ n ∈ host.nodes, n.domain ≠ d.other)
    (hkinds : (axioms.map (·.kindIn d.other)).Nodup) (ha : a ∈ axioms) :
    ¬a.Reads d.other g id := by
  have hother := Domain.other_ne_correspondence hd
  rintro ⟨n, hn, rfl, hdomain, hkind, hnew⟩
  rcases h.mem_nodes_iff.mp hn with hold | ⟨t, ht, hmem⟩
  · exact hnone n hold hdomain
  · rcases List.mem_pair.mp hmem with rfl | rfl
    · exact hother hdomain.symm
    · obtain rfl := List.inj_on_of_nodup_map hkinds (h.reads t ht).1 ha hkind
      exact hnew ((h.hasLink_iff hhost hd hother).mpr (Or.inr ⟨t, ht, rfl, t.endIn_other hd⟩))

lemma rests_other (h : Traces axioms d host ids ts g s) (hhost : host.WellFormed)
    (hd : d ≠ .correspondence) (hnone : ∀ n ∈ host.nodes, n.domain ≠ d.other)
    (hkinds : (axioms.map (·.kindIn d.other)).Nodup) (ha : a ∈ axioms) :
    a.rule.Rests d.other g :=
  Pairing.rests_of_not_reads (Domain.other_ne_correspondence hd) h.wellFormed
    fun _ => h.not_reads_other hhost hd hnone hkinds ha

end Traces

namespace Grammar

variable {G : Grammar} {axioms : List Pairing} {host : Graph} {ids : IdSupply}

/-- Axioms whose twins differ in type have derived all that there is to derive in either direction
once they have been read forward without pruning. To read them backward on the same host takes one
pass in which nothing happens. The host may have correspondences of its own, but no twins, and links
of several axioms may be of one type. -/
theorem backward_after_forward
    (hrules : List.Forall₂
      (fun a r => Rule.pairing a.name a.sourceKind a.targetKind a.linkKind = .ok r) axioms G.rules)
    (htargets : (axioms.map (·.targetKind)).Nodup) (hpolicy : G.policy.prune = false)
    (hG : ∀ k, G.strategy k = .backtracking) (hhost : host.WellFormed)
    (hnone : ∀ n ∈ host.nodes, n.domain ≠ .target)
    (hroom : ids.RoomBeyond host (2 * (Pairing.openPairs axioms .source host).length)) :
    ∃ (o : Outcome) (t : Derivation) (o' : Outcome) (t' : Derivation),
      (∀ fuel, (Pairing.openPairs axioms .source host).length + 1 ≤ fuel →
        G.forward fuel host ids = some o) ∧
      o.result = .ok t ∧ t.graph = o.host ∧
      (∀ fuel, 0 < fuel → G.backward fuel o.host o.ids = some o') ∧
      o'.result = .ok t' ∧ t'.graph = o.host ∧ t'.passes = 1 ∧ t'.firings = ∅ ∧
      o'.host = o.host ∧ o'.ids = o.ids := by
  have hd : Domain.source ≠ .correspondence := by decide
  have hrules := Pairing.rules_eq hrules
  obtain ⟨sites, ts, q, hsettles, htraces, hsites, -⟩ := Traces.exists_settles hG hhost hd
    (Pairing.readsAtMost_openPairs axioms .source host) hroom hrules
  have hlength : sites.length ≤ (Pairing.openPairs axioms .source host).length := by
    rw [← List.length_map (·.rule), ← hsites, List.length_map]
    exact htraces.length_le (Pairing.readsAtMost_openPairs axioms .source host)
  have hrests : ∀ r ∈ G.rules, r.Rests .target q.host := by
    rw [hrules]
    intro r hr
    obtain ⟨a, ha, rfl⟩ := List.mem_map.mp hr
    exact htraces.rests_other hhost hd hnone htargets ha
  obtain ⟨q', hback, hhost', hids', hpasses', hfirings'⟩ :=
    exists_finish_of_rests hG hrests .source q.ids
  obtain ⟨t, ht, hgraph, -, -⟩ := finish_of_output .source
    (output_of_not_prune hpolicy q.host .target)
  obtain ⟨t', ht', hgraph', hpasses, hfirings⟩ := finish_of_output .target
    (output_of_not_prune hpolicy q'.host .source)
  refine ⟨G.finish .source .target q, t, G.finish .target .source q', t',
    fun fuel hfuel => hsettles.derive (by omega), ht, hgraph.trans host_finish.symm, ?_, ht', ?_,
    hpasses.trans hpasses', hfirings.trans hfirings', ?_, ?_⟩
  · rw [host_finish, ids_finish]
    exact hback
  · rw [host_finish, hgraph', hhost']
  · rw [host_finish, host_finish, hhost']
  · rw [ids_finish, ids_finish, hids']

/-- Two axioms read queues, one of which has an edge to the other. -/
theorem backward_after_forward_queues :
    let queue : Pairing :=
      { name := "queue", sourceKind := "Queue", targetKind := "CfnQueue", linkKind := "QueueAxiom" }
    let audit : Pairing :=
      { name := "audit", sourceKind := "Queue", targetKind := "Trail", linkKind := "AuditAxiom" }
    let G : Grammar := { rules := [queue.rule, audit.rule], policy := .unpruned }
    let host := (Graph.assemble
      [{ id := ⟨0⟩, kind := "Queue", domain := .source },
       { id := ⟨1⟩, kind := "Queue", domain := .source }]
      [{ tail := ⟨0⟩, head := ⟨1⟩ }]).after ∅
    let ids : IdSupply := { next := ⟨2⟩ }
    List.Forall₂ (fun (a : Pairing) r =>
        Rule.pairing a.name a.sourceKind a.targetKind a.linkKind = .ok r) [queue, audit] G.rules ∧
      ([queue, audit].map (·.targetKind)).Nodup ∧ G.policy.prune = false ∧
      (∀ k, G.strategy k = .backtracking) ∧ host.WellFormed ∧
      (∀ n ∈ host.nodes, n.domain ≠ .target) ∧
      ids.RoomBeyond host (2 * (Pairing.openPairs [queue, audit] .source host).length) ∧
      ∃ o t o' t', G.forward 5 host ids = some o ∧ o.result = .ok t ∧
        G.backward 1 o.host o.ids = some o' ∧ o'.result = .ok t' ∧ t'.passes = 1 ∧
        t'.firings = ∅ ∧ o'.host = o.host ∧ o'.ids = o.ids := by
  intro queue audit G host ids
  have hrules : List.Forall₂ (fun (a : Pairing) r =>
      Rule.pairing a.name a.sourceKind a.targetKind a.linkKind = .ok r) [queue, audit] G.rules :=
    .cons (Pairing.pairing_eq _) (.cons (Pairing.pairing_eq _) .nil)
  have htargets : ([queue, audit].map (·.targetKind)).Nodup := by decide
  have hG : ∀ k, G.strategy k = .backtracking := fun _ => rfl
  have hhost : host.WellFormed :=
    Graph.assemble_keeps_wellFormed _ _ ∅ (Graph.wellFormed_bare none)
  have hnone : ∀ n ∈ host.nodes, n.domain ≠ .target := by decide +kernel
  have hpairs : (Pairing.openPairs [queue, audit] .source host).length = 4 := by decide +kernel
  have hroom : ids.RoomBeyond host
      (2 * (Pairing.openPairs [queue, audit] .source host).length) := by decide +kernel
  obtain ⟨o, t, o', t', hforward, ht, -, hbackward, ht', -, hpasses, hfirings, hsame, hids⟩ :=
    backward_after_forward hrules htargets rfl hG hhost hnone hroom
  exact ⟨hrules, htargets, rfl, hG, hhost, hnone, hroom, o, t, o', t',
    hforward 5 (by rw [hpairs]), ht, hbackward 1 Nat.one_pos, ht', hpasses, hfirings, hsame, hids⟩

end Grammar

end TripleGrammar
