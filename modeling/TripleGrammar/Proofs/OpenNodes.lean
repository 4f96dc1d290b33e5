import TripleGrammar.Proofs.PairingRuns

/-!
# How often axioms fire

A node is open to an axiom as long as no link of its type joins that node alone. A run of axioms
whose links differ in type fires once for each axiom and each node that is open to it to begin with,
and the host that it leaves has the traces of these firings and nothing else that is new.
-/

namespace TripleGrammar

namespace Pairing

variable {a : Pairing} {axioms : List Pairing} {d : Domain} {host : Graph} {n : Node}
  {id : NodeId}

/-- The nodes of the type that the axiom reads for which the host has no link of its type yet. -/
def openNodes (a : Pairing) (d : Domain) (host : Graph) : List Node :=
  host.nodes.filter fun n =>
    decide (n.domain = d ∧ n.kind = a.kindIn d ∧ ¬host.HasLink d a.linkKind n.id)

lemma mem_openNodes_iff : n ∈ a.openNodes d host ↔
    n ∈ host.nodes ∧ n.domain = d ∧ n.kind = a.kindIn d ∧ ¬host.HasLink d a.linkKind n.id := by
  unfold openNodes
  rw [List.mem_filter, decide_eq_true_iff]

/-- Each axiom with each of the nodes that are open to it. -/
def openPairs (axioms : List Pairing) (d : Domain) (host : Graph) : List (Pairing × NodeId) :=
  axioms.flatMap fun a => (a.openNodes d host).map fun n => (a, n.id)

lemma mem_openPairs_iff :
    (a, id) ∈ openPairs axioms d host ↔ a ∈ axioms ∧ a.Reads d host id := by
  unfold openPairs Reads
  simp only [List.mem_flatMap, List.mem_map, mem_openNodes_iff, Prod.mk.injEq]
  constructor
  · rintro ⟨a', ha, n, ⟨hn, hdomain, hkind, hnew⟩, rfl, rfl⟩
    exact ⟨ha, n, hn, rfl, hdomain, hkind, hnew⟩
  · rintro ⟨ha, n, hn, rfl, hdomain, hkind, hnew⟩
    exact ⟨a, ha, n, ⟨hn, hdomain, hkind, hnew⟩, rfl, rfl⟩

lemma nodup_openPairs (hhost : host.WellFormed) (haxioms : axioms.Nodup) :
    (openPairs axioms d host).Nodup := by
  unfold openPairs
  rw [List.nodup_flatMap]
  constructor
  · intro a _
    have hids : ((a.openNodes d host).map (·.id)).Nodup :=
      hhost.nodup.sublist (List.filter_sublist.map _)
    exact List.Nodup.of_map Prod.snd (by rwa [List.map_map])
  · refine haxioms.imp fun {a b} hne => ?_
    rintro ⟨c, id⟩ ha hb
    obtain ⟨n, -, hn⟩ := List.mem_map.mp ha
    obtain ⟨m, -, hm⟩ := List.mem_map.mp hb
    exact hne (congrArg Prod.fst (hn.trans hm.symm))

lemma readsAtMost_openPairs (axioms : List Pairing) (d : Domain) (host : Graph) :
    ReadsAtMost axioms d host (openPairs axioms d host).length :=
  fun _ hl hreads =>
    (List.subperm_of_subset hl fun p hp => mem_openPairs_iff.mpr (hreads p hp)).length_le

lemma openPairs_cons (a : Pairing) (axioms : List Pairing) :
    openPairs (a :: axioms) d host =
      ((a.openNodes d host).map fun n => (a, n.id)) ++ openPairs axioms d host :=
  List.flatMap_cons

/-- If names tell the axioms apart, an axiom's name stands for the nodes that are open to it. -/
lemma count_openPairs (hnames : (axioms.map (·.name)).Nodup) (ha : a ∈ axioms) :
    ((openPairs axioms d host).map (·.1.name)).count a.name = (a.openNodes d host).length := by
  induction axioms with
  | nil => cases ha
  | cons b axioms ih =>
    obtain ⟨hb, hrest⟩ := List.nodup_cons.mp hnames
    have hfirst : ((b.openNodes d host).map fun n => (b, n.id)).map (·.1.name) =
        List.replicate (b.openNodes d host).length b.name := by
      rw [List.map_map]
      change (b.openNodes d host).map (fun _ => b.name) = _
      exact List.map_const'
    rw [openPairs_cons, List.map_append, List.count_append, hfirst]
    rcases List.mem_cons.mp ha with rfl | ha
    · have hnone : ((openPairs axioms d host).map (·.1.name)).count a.name = 0 := by
        rw [List.count_eq_zero, List.mem_map]
        rintro ⟨⟨c, id⟩, hc, hname⟩
        exact hb (List.mem_map.mpr ⟨c, (mem_openPairs_iff.mp hc).1, hname⟩)
      rw [List.count_replicate_self, hnone, Nat.add_zero]
    · have hne : a.name ≠ b.name := by
        intro hname
        exact hb (List.mem_map.mpr ⟨a, ha, hname⟩)
      rw [List.count_replicate, if_neg (by simpa using hne.symm), Nat.zero_add, ih hrest ha]

end Pairing

namespace Traces

variable {axioms : List Pairing} {d : Domain} {host g : Graph} {ids s : IdSupply}
  {ts : List Trace}

/-- When no axiom can read a node any more, there is one trace for each axiom and each node that was
open to it. -/
lemma perm_openPairs (h : Traces axioms d host ids ts g s) (hhost : host.WellFormed)
    (hd : d ≠ .correspondence) (hlinks : (axioms.map (·.linkKind)).Nodup)
    (hnone : ∀ a ∈ axioms, ∀ id, ¬a.Reads d g id) :
    (ts.map fun t => (t.rule, t.node)).Perm (Pairing.openPairs axioms d host) := by
  apply (List.perm_ext_iff_of_nodup h.nodup
    (Pairing.nodup_openPairs hhost (List.Nodup.of_map _ hlinks))).mpr
  rintro ⟨a, id⟩
  rw [Pairing.mem_openPairs_iff]
  constructor
  · intro hmem
    obtain ⟨t, ht, heq⟩ := List.mem_map.mp hmem
    obtain ⟨rfl, rfl⟩ := Prod.mk.inj heq
    exact h.reads t ht
  · rintro ⟨ha, hreads⟩
    obtain ⟨t, ht, rfl, rfl⟩ := h.exists_trace hhost hd hlinks ha (hnone a ha id) hreads
    exact List.mem_map.mpr ⟨t, ht, rfl⟩

/-- The run of axioms fires once for each pair and records the firings under the axioms' names. -/
theorem exists_settles_openPairs {G : Grammar} (hG : ∀ k, G.strategy k = .backtracking)
    (hhost : host.WellFormed) (hd : d ≠ .correspondence)
    (hroom : ids.RoomBeyond host (2 * (Pairing.openPairs axioms d host).length))
    (hrules : G.rules = axioms.map (·.rule)) (hlinks : (axioms.map (·.linkKind)).Nodup) :
    ∃ sites ts q, G.Settles d { host, ids } sites q ∧ Traces axioms d host ids ts q.host q.ids ∧
      sites.length = (Pairing.openPairs axioms d host).length ∧
      (ts.map fun t => (t.rule, t.node)).Perm (Pairing.openPairs axioms d host) ∧
      ∀ k, q.firings.get? k =
        tally (((Pairing.openPairs axioms d host).map (·.1.name)).count k) := by
  obtain ⟨sites, ts, q, hsettles, htraces, hsites, hnone⟩ := exists_settles hG hhost hd
    (Pairing.readsAtMost_openPairs axioms d host) hroom hrules
  have hperm := htraces.perm_openPairs hhost hd hlinks hnone
  refine ⟨sites, ts, q, hsettles, htraces, ?_, hperm, fun k => ?_⟩
  · rw [← hperm.length_eq, List.length_map, ← List.length_map (·.rule), ← hsites, List.length_map]
  · have hnames := congrArg (List.map Rule.name) hsites
    rw [List.map_map, List.map_map] at hnames
    have hsame : sites.map (·.rule.name) = (ts.map fun t => (t.rule, t.node)).map (·.1.name) := by
      rw [List.map_map]
      exact hnames.symm
    rw [hsettles.firings rfl k, hsame, (hperm.map _).count_eq]

end Traces

namespace Grammar

variable {G : Grammar} {axioms : List Pairing} {d : Domain} {host : Graph} {ids : IdSupply}

lemma output_of_not_prune (hpolicy : G.policy.prune = false) (host : Graph) (writes : Domain) :
    G.output host writes = .ok (host, []) := by
  unfold output
  rw [hpolicy]
  rfl

/-- Without pruning, axioms that differ in name and in the type of their links derive one default
correspondence, one twin and the two edges between the link and its ends for each node that is open
to them, and nothing else. Each fires as often as there are such nodes, and it has no entry among
the firings if there are none. The domain that is read may be that of the sources or that of the
targets. -/
theorem derive_pairs_open_nodes
    (hrules : List.Forall₂
      (fun a r => Rule.pairing a.name a.sourceKind a.targetKind a.linkKind = .ok r) axioms G.rules)
    (hnames : (axioms.map (·.name)).Nodup) (hlinks : (axioms.map (·.linkKind)).Nodup)
    (hpolicy : G.policy.prune = false) (hG : ∀ k, G.strategy k = .backtracking)
    (hd : d ≠ .correspondence) (hhost : host.WellFormed)
    (hroom : ids.RoomBeyond host (2 * (Pairing.openPairs axioms d host).length)) :
    ∃ (o : Outcome) (t : Derivation) (ts : List Trace),
      (∀ fuel, (Pairing.openPairs axioms d host).length + 1 ≤ fuel →
        G.derive d d.other fuel host ids = some o) ∧
      o.result = .ok t ∧ t.graph = o.host ∧
      t.passes = (Pairing.openPairs axioms d host).length + 1 ∧
      (∀ a ∈ axioms, t.firings.get? a.name = tally (a.openNodes d host).length) ∧
      (∀ k, k ∉ axioms.map (·.name) → t.firings.get? k = none) ∧
      (ts.map fun t => (t.rule, t.node)).Perm (Pairing.openPairs axioms d host) ∧
      o.host.WellFormed ∧ o.host.name = host.name ∧
      o.host.nodes = host.nodes ++ ts.flatMap (·.nodes d) ∧
      o.host.edges = host.edges ++ ts.flatMap (·.edges d) ∧
      o.ids = ids.skip (2 * ts.length) := by
  have hrules := Pairing.rules_eq hrules
  obtain ⟨sites, ts, q, hsettles, htraces, hlength, hperm, hcount⟩ :=
    Traces.exists_settles_openPairs hG hhost hd hroom hrules hlinks
  obtain ⟨t, ht, hgraph, hpasses, hfirings⟩ := finish_of_output d
    (output_of_not_prune hpolicy q.host d.other)
  refine ⟨G.finish d d.other q, t, ts, fun fuel hfuel => hsettles.derive (by omega), ht,
    hgraph.trans host_finish.symm, ?_, ?_, ?_, hperm, ?_, ?_, ?_, ?_, ?_⟩
  · have hsum := hsettles.passes
    change q.passes = 0 + sites.length + 1 at hsum
    omega
  · intro a ha
    rw [hfirings, hcount, Pairing.count_openPairs hnames ha]
  · intro k hk
    have hzero : ((Pairing.openPairs axioms d host).map (·.1.name)).count k = 0 := by
      rw [List.count_eq_zero, List.mem_map]
      rintro ⟨⟨a, id⟩, ha, rfl⟩
      exact hk (List.mem_map_of_mem (Pairing.mem_openPairs_iff.mp ha).1)
    rw [hfirings, hcount, hzero]
    rfl
  · rw [host_finish]
    exact htraces.wellFormed
  · rw [host_finish]
    exact htraces.name
  · rw [host_finish]
    exact htraces.nodes
  · rw [host_finish]
    exact htraces.edges
  · rw [ids_finish]
    exact htraces.ids

/-- Of two queues one is linked already, by an axiom that reads queues. The other axiom that reads
them has a link of its own. -/
theorem derive_pairs_open_nodes_queues :
    let queue : Pairing :=
      { name := "queue", sourceKind := "Queue", targetKind := "CfnQueue", linkKind := "QueueAxiom" }
    let audit : Pairing :=
      { name := "audit", sourceKind := "Queue", targetKind := "Trail", linkKind := "AuditAxiom" }
    let G : Grammar := { rules := [queue.rule, audit.rule], policy := .unpruned }
    let host := (Graph.assemble
      [{ id := ⟨0⟩, kind := "Queue", domain := .source },
       { id := ⟨1⟩, kind := "Queue", domain := .source },
       { id := ⟨2⟩, kind := "QueueAxiom", domain := .correspondence }]
      [{ tail := ⟨2⟩, head := ⟨0⟩ }]).after ∅
    let ids : IdSupply := { next := ⟨3⟩ }
    List.Forall₂ (fun (a : Pairing) r =>
        Rule.pairing a.name a.sourceKind a.targetKind a.linkKind = .ok r) [queue, audit] G.rules ∧
      ([queue, audit].map (·.name)).Nodup ∧ ([queue, audit].map (·.linkKind)).Nodup ∧
      G.policy.prune = false ∧ (∀ k, G.strategy k = .backtracking) ∧
      Domain.source ≠ .correspondence ∧ host.WellFormed ∧
      ids.RoomBeyond host (2 * (Pairing.openPairs [queue, audit] .source host).length) ∧
      ∃ o t, G.forward 4 host ids = some o ∧ o.result = .ok t ∧ t.passes = 4 ∧
        t.firings.get? "queue" = some 1 ∧ t.firings.get? "audit" = some 2 ∧
        o.host.nodes.length = 9 ∧ o.host.edges.length = 7 := by
  intro queue audit G host ids
  have hrules : List.Forall₂ (fun (a : Pairing) r =>
      Rule.pairing a.name a.sourceKind a.targetKind a.linkKind = .ok r) [queue, audit] G.rules :=
    .cons (Pairing.pairing_eq _) (.cons (Pairing.pairing_eq _) .nil)
  have hnames : ([queue, audit].map (·.name)).Nodup := by decide
  have hlinks : ([queue, audit].map (·.linkKind)).Nodup := by decide
  have hG : ∀ k, G.strategy k = .backtracking := fun _ => rfl
  have hd : Domain.source ≠ .correspondence := by decide
  have hhost : host.WellFormed :=
    Graph.assemble_keeps_wellFormed _ _ ∅ (Graph.wellFormed_bare none)
  have hpairs : (Pairing.openPairs [queue, audit] .source host).length = 3 := by decide +kernel
  have hqueue : (queue.openNodes .source host).length = 1 := by decide +kernel
  have haudit : (audit.openNodes .source host).length = 2 := by decide +kernel
  have hroom : ids.RoomBeyond host
      (2 * (Pairing.openPairs [queue, audit] .source host).length) := by decide +kernel
  obtain ⟨o, t, ts, hderive, ht, -, hpasses, hfirings, -, hperm, -, -, hnodes, hedges, -⟩ :=
    derive_pairs_open_nodes hrules hnames hlinks rfl hG hd hhost hroom
  have hlength := hperm.length_eq
  rw [List.length_map, hpairs] at hlength
  refine ⟨hrules, hnames, hlinks, rfl, hG, hd, hhost, hroom, o, t,
    hderive 4 (by rw [hpairs]), ht, by rw [hpasses, hpairs], ?_, ?_, ?_, ?_⟩
  · exact (hfirings queue List.mem_cons_self).trans (by rw [hqueue]; rfl)
  · exact (hfirings audit (List.mem_cons_of_mem _ List.mem_cons_self)).trans (by rw [haudit]; rfl)
  · have hold : host.nodes.length = 3 := by decide +kernel
    rw [hnodes, List.length_append, List.length_flatMap, hold]
    simp [Trace.nodes, hlength]
  · have hold : host.edges.length = 1 := by decide +kernel
    rw [hedges, List.length_append, List.length_flatMap, hold]
    simp [Trace.edges, hlength]

end Grammar

end TripleGrammar
