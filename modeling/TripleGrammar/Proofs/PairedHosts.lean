import TripleGrammar.Proofs.DrawnIds
import TripleGrammar.Proofs.Realizations

/-!
# Default links stay pairs

A host can be pruned if each default correspondence pairs one source node with one target node.
Every firing keeps it so if the rules draw a pair for each default correspondence that they make,
and draw nothing from a correspondence that they find to one of the two sides. What a rule finds may
well be a default correspondence, even if the rule does not mark it as one.
-/

namespace TripleGrammar

namespace Graph

variable {g : Graph} {x : Domain}

/-- Each default correspondence has one source node and one target node among its successors. -/
def Paired (g : Graph) : Prop :=
  ∀ c ∈ g.nodes, c.domain = .correspondence → c.isDefault = true →
    g.linkedCount .source c.id = 1 ∧ g.linkedCount .target c.id = 1

instance (g : Graph) : Decidable g.Paired := inferInstanceAs (Decidable (∀ c ∈ _, _))

lemma linkedCount_eq_one_iff (hg : g.WellFormed) {c : NodeId} :
    g.linkedCount x c = 1 ↔ ∃ s, g.Joins x c [s] := by
  constructor
  · intro hcount
    rw [← length_idsIn_successorsOf hg, List.length_eq_one_iff] at hcount
    obtain ⟨s, hs⟩ := hcount
    refine ⟨s, fun id => ?_⟩
    rw [← hs, hg.mem_idsIn_successorsOf_iff]
  · rintro ⟨s, hjoins⟩
    exact linkedCount_of_joins hg hjoins (List.nodup_singleton s)

lemma Paired.find?_unpaired (h : g.Paired) : g.nodes.find? g.unpaired = none := by
  rw [List.find?_eq_none]
  intro c hc hunpaired
  unfold unpaired isPairing at hunpaired
  simp only [Bool.and_eq_true, Bool.not_eq_true', beq_iff_eq, Bool.and_eq_false_iff,
    beq_eq_false_iff_ne] at hunpaired
  obtain ⟨⟨hdomain, hflag⟩, hcounts⟩ := hunpaired
  obtain ⟨hsource, htarget⟩ := h c hc hdomain hflag
  exact hcounts.elim (· hsource) (· htarget)

end Graph

namespace Rule

variable {r : Rule} {d x : Domain} {host : Graph} {found bound : Match} {nodes : List Node}
  {edges : List Edge}

/-- The number of nodes that the rule has in the domain and to which it draws edges from `c`. -/
def drawnCount (r : Rule) (x : Domain) (c : NodeId) : Nat :=
  (r.graph.nodesIn x).countP fun n =>
    r.graph.edges.any fun e => e.hasAction .create && e.tail == c && e.head == n.id

/-- For each default correspondence that the rule makes it draws edges to one source node and to one
target node. -/
def DrawsPairs (r : Rule) (d : Domain) : Prop :=
  ∀ c ∈ r.newTemplates d, c.isDefault = true →
    r.drawnCount .source c.id = 1 ∧ r.drawnCount .target c.id = 1

instance (r : Rule) (d : Domain) : Decidable (r.DrawsPairs d) :=
  inferInstanceAs (Decidable (∀ c ∈ _, _))

/-- The rule draws no edge from a correspondence of its context to a source node or a target
node. -/
def SparesPairs (r : Rule) (d : Domain) : Prop :=
  ∀ c ∈ (r.graph.context d).nodesIn .correspondence, ∀ n ∈ r.graph.nodes,
    n.domain ≠ .correspondence → ∀ e ∈ r.graph.edges, e.hasAction .create = true →
      ¬(e.tail = c.id ∧ e.head = n.id)

instance (r : Rule) (d : Domain) : Decidable (r.SparesPairs d) :=
  inferInstanceAs (Decidable (∀ c ∈ _, ∀ n ∈ _, _))

lemma exists_drawn_iff_of_drawnCount {c : NodeId} (h : r.drawnCount x c = 1) :
    ∃ n₀ ∈ r.graph.nodesIn x, ∀ n ∈ r.graph.nodesIn x,
      (∃ e ∈ r.graph.edges, e.hasAction .create = true ∧ e.tail = c ∧ e.head = n.id) ↔
        n = n₀ := by
  unfold drawnCount at h
  rw [List.countP_eq_length_filter, List.length_eq_one_iff] at h
  obtain ⟨n₀, hfilter⟩ := h
  have hmem : ∀ n, (n ∈ r.graph.nodesIn x ∧
      ∃ e ∈ r.graph.edges, e.hasAction .create = true ∧ e.tail = c ∧ e.head = n.id) ↔
        n = n₀ := by
    intro n
    rw [← List.mem_singleton, ← hfilter, List.mem_filter]
    simp only [List.any_eq_true, Bool.and_eq_true, beq_iff_eq, and_assoc]
  refine ⟨n₀, ((hmem n₀).mpr rfl).1, fun n hn => ?_⟩
  rw [← hmem n]
  exact (and_iff_right hn).symm

namespace Adds

lemma domainOf?_head_of_sparesPairs (h : r.Adds d host found nodes edges bound)
    (hrule : r.graph.WellFormed) (hhost : host.WellFormed) (hfits : host.Fits r.graph d found)
    (hspares : r.SparesPairs d) {c : Node} (hc : c ∈ host.nodes)
    (hcd : c.domain = .correspondence) {e' : Edge} (he' : e' ∈ edges) (htail : e'.tail = c.id) :
    (host.extend nodes edges).domainOf? e'.head = some .correspondence := by
  obtain ⟨t, ht, htd, e, hmem, hcreate, het, hhead⟩ :=
    h.exists_drawn hrule hhost hfits hc he' htail
  obtain ⟨n, hn, hnid⟩ := List.mem_map.mp (hrule.head_mem e hmem)
  rw [hhead, ← hnid, hrule.domainOf?_of_mem hn]
  by_contra hne
  have hside : n.domain ≠ .correspondence := fun heq => hne (congrArg some heq)
  exact hspares t (List.mem_filter.mpr ⟨ht, by simp [htd, hcd]⟩) n hn hside e hmem hcreate
    ⟨het, hnid.symm⟩

/-- A new node from whose template the rule draws edges to one node of a domain only joins the node
to which that one is bound. -/
lemma exists_joins_of_drawnCount (h : r.Adds d host found nodes edges bound)
    (hrule : r.graph.WellFormed) (hhost : host.WellFormed) (hfits : host.Fits r.graph d found)
    (hinj : ∀ a b id, bound.get? a = some id → bound.get? b = some id → a = b) {c m : Node}
    (hc : c ∈ r.newTemplates d) (hm : m ∈ nodes) (hinst : IsInstance bound c m)
    (hcount : r.drawnCount x c.id = 1) : ∃ s, (host.extend nodes edges).Joins x m.id [s] := by
  obtain ⟨n₀, hn₀, hdrawn⟩ := exists_drawn_iff_of_drawnCount hcount
  obtain ⟨hn₀mem, hn₀d⟩ := List.mem_filter.mp hn₀
  obtain ⟨m₀, hm₀, hget₀, -, hm₀d⟩ := h.exists_node hrule hfits hn₀mem
  refine ⟨m₀.id, Graph.joins_iff_forall_mem.mpr ⟨fun e' he' ht hd => ?_, fun id hid => ?_⟩⟩
  · rw [h.edges_extend] at he'
    rcases List.mem_append.mp he' with hold | hnew
    · have htail := hhost.contains_tail hold
      rw [ht, h.fresh m hm] at htail
      cases htail
    · obtain ⟨e, he, hplace⟩ := exists_left_of_forall₂ h.placed hnew
      obtain ⟨hmem, hcreate, -⟩ := mem_of_mem_newEdges he
      obtain ⟨htail, hhead, -, -⟩ := placeEdge_eq_ok_iff.mp hplace
      rw [ht] at htail
      -- different nodes of the rule are bound to different nodes, so the edge is one of those at `c`
      have hetail : e.tail = c.id := hinj _ _ _ htail hinst.bound
      rw [h.domainOf?_eq hrule hhost hfits (hrule.head_mem e hmem) hhead] at hd
      obtain ⟨n, hn, hnid, hnd⟩ := hrule.domainOf?_iff.mp hd
      obtain rfl := (hdrawn n (List.mem_filter.mpr ⟨hn, by simp [hnd]⟩)).mp
        ⟨e, hmem, hcreate, hetail, hnid.symm⟩
      rw [← hnid, hget₀] at hhead
      exact List.mem_singleton.mpr (Option.some.inj hhead).symm
  · obtain rfl := List.mem_singleton.mp hid
    obtain ⟨e, he, hcreate, ht, hh⟩ := (hdrawn n₀ hn₀).mpr rfl
    have houtside : r.graph.edgeInside d e = false := by
      unfold Graph.edgeInside
      rw [ht, hrule.domainOf?_of_mem (mem_of_mem_newTemplates hc)]
      simp [domain_ne_of_mem_newTemplates hc]
    obtain ⟨e', he', hplace⟩ :=
      exists_right_of_forall₂ h.placed (mem_newEdges he hcreate houtside)
    obtain ⟨htail, hhead, -, -⟩ := placeEdge_eq_ok_iff.mp hplace
    rw [ht] at htail
    rw [hh, hget₀] at hhead
    refine ⟨e', ?_, ?_, (Option.some.inj hhead).symm, ?_⟩
    · rw [h.edges_extend]
      exact List.mem_append_right _ he'
    · exact Option.some.inj (htail.symm.trans hinst.bound)
    · rw [(h.wellFormed hhost).domainOf?_of_mem hm₀, hm₀d, eq_of_beq hn₀d]

lemma paired_extend (h : r.Adds d host found nodes edges bound) (hrule : r.graph.WellFormed)
    (hhost : host.WellFormed) (hfits : host.Fits r.graph d found)
    (hinj : ∀ a b id, bound.get? a = some id → bound.get? b = some id → a = b)
    (hdraws : r.DrawsPairs d) (hspares : r.SparesPairs d) (hpaired : host.Paired) :
    (host.extend nodes edges).Paired := by
  have hwf := h.wellFormed hhost
  intro c hc hcd hflag
  rw [Graph.nodes_extend] at hc
  rcases List.mem_append.mp hc with hold | hnew
  · have hside : ∀ x : Domain, x ≠ .correspondence → host.linkedCount x c.id = 1 →
        (host.extend nodes edges).linkedCount x c.id = 1 := by
      intro x hx hcount
      obtain ⟨s, hjoins⟩ := (Graph.linkedCount_eq_one_iff hhost).mp hcount
      refine (Graph.linkedCount_eq_one_iff hwf).mpr
        ⟨s, h.joins_extend_of_head_ne hrule hhost hfits (fun e' he' ht hd => hx ?_) hjoins⟩
      rw [h.domainOf?_head_of_sparesPairs hrule hhost hfits hspares hold hcd he' ht] at hd
      exact (Option.some.inj hd).symm
    obtain ⟨hsource, htarget⟩ := hpaired c hold hcd hflag
    exact ⟨hside .source (by simp) hsource, hside .target (by simp) htarget⟩
  · obtain ⟨t, ht, hinst⟩ := exists_left_of_forall₂ h.instances hnew
    have htflag := hflag
    rw [hinst.isDefault, Bool.and_eq_true] at htflag
    obtain ⟨hsource, htarget⟩ := hdraws t ht htflag.1
    rw [Graph.linkedCount_eq_one_iff hwf, Graph.linkedCount_eq_one_iff hwf]
    exact ⟨h.exists_joins_of_drawnCount hrule hhost hfits hinj ht hnew hinst hsource,
      h.exists_joins_of_drawnCount hrule hhost hfits hinj ht hnew hinst htarget⟩

end Adds

end Rule

namespace Grammar

variable {G : Grammar} {d reads : Domain} {host : Graph} {ids : IdSupply}

/-- The rules draw pairs for the default correspondences that they make, and spare those that are
there. -/
def KeepsPairs (G : Grammar) (d : Domain) : Prop :=
  ∀ r ∈ G.rules, r.DrawsPairs d ∧ r.SparesPairs d

instance (G : Grammar) (d : Domain) : Decidable (G.KeepsPairs d) :=
  inferInstanceAs (Decidable (∀ r ∈ _, _))

lemma paired_firings (hG : ∀ k, (G.strategy k).Sound) (hrules : ∀ r ∈ G.rules, r.graph.WellFormed)
    (hpairs : G.KeepsPairs d) : G.FiringsKeep d fun g => g.WellFormed ∧ g.Paired := by
  rintro r hr p q result ⟨hp, hpaired⟩ htries
  have hrule := hrules r hr
  refine ⟨G.wellFormed_firings d r hr p q result hp htries, ?_⟩
  cases result with
  | error e =>
    obtain ⟨-, -, hcases⟩ := htries.cases hG hrule hp
    rcases hcases with ⟨id, -, hhost⟩ | ⟨nodes, edges, bound, hok, -⟩
    · exact hhost ▸ hpaired
    · cases hok
  | ok f =>
    have hfits := (fits_nextMatch hG hrule hp htries.found).1
    obtain ⟨nodes, edges, bound, -, hhost, -, -, hadds, hbound⟩ :=
      Rule.of_fire_ok hrule hp hfits htries.fire
    have hinj := (hadds.realizes hrule hp hfits hbound).injective
    obtain ⟨hdraws, hspares⟩ := hpairs r hr
    exact hhost ▸ hadds.paired_extend hrule hp hfits hinj hdraws hspares hpaired

/-- If the default correspondences of a host are pairs and the rules keep them so, they are pairs at
any point of a derivation. So the host can be pruned in the end, and a derivation from a supply that
is beyond the host and does not start over succeeds. -/
theorem derivations_keep_pairs (hG : ∀ k, (G.strategy k).Sound)
    (hrules : ∀ r ∈ G.rules, r.graph.WellFormed) (hhost : host.WellFormed)
    (hpairs : G.KeepsPairs reads) (hpaired : host.Paired) :
    (∀ sites q tried, G.Leads reads { host, ids } sites q → tried <+: G.rules →
      (G.pass reads tried q.beginPass).progress.host.Paired) ∧
    ∀ writes fuel o, G.derive reads writes fuel host ids = some o →
      o.host.Paired ∧
      (ids.Beyond host → G.SupplyLastsUpTo reads fuel { host, ids } →
        ∃ t, o.result = .ok t) := by
  have hkeep := paired_firings hG hrules hpairs
  refine ⟨fun sites q tried hq htried => ?_, fun writes fuel o ho => ?_⟩
  · have hq := hq.keeps hkeep ⟨hhost, hpaired⟩
    exact (pass_keeps hkeep htried.subset (p := q.beginPass) hq).2
  · obtain ⟨ending, q, hrun, hsame, -⟩ := exists_run_of_derive ho
    refine ⟨hsame ▸ (run_keeps hkeep ⟨hhost, hpaired⟩ hrun).2, fun hbeyond hlast => ?_⟩
    cases hresult : o.result with
    | ok t => exact ⟨t, rfl⟩
    | error e =>
      obtain ⟨ending, q, hrun, -, hcases⟩ := exists_run_of_derive_error ho hresult
      rcases hcases with ⟨err, rfl, -⟩ | ⟨-, hprune⟩
      · have hok := (numbered_of_run hG hrules hhost hbeyond hlast le_rfl hrun).2
        exact absurd rfl (hok err)
      · obtain ⟨hwf, hpaired⟩ := run_keeps hkeep ⟨hhost, hpaired⟩ hrun
        obtain ⟨p, hp, -⟩ := Graph.exists_prune hwf (d := writes) hpaired.find?_unpaired
        cases hprune.symm.trans hp

/-- The topic is paired already. The rule finds its link, although it does not ask for a default
link, and draws an edge to it but none from it. -/
theorem derivations_keep_pairs_topics :
    let topic : Node := { id := ⟨0⟩, kind := "Topic", domain := .source, action := some .create }
    let link : Node :=
      { id := ⟨1⟩, kind := "Pair", domain := .correspondence, action := some .preserve }
    let record : Node :=
      { id := ⟨2⟩, kind := "Record", domain := .target, action := some .create }
    let note : Node :=
      { id := ⟨3⟩, kind := "Note", domain := .correspondence, action := some .create,
        isDefault := true }
    let noted := (Graph.assemble [topic, link, record, note]
      [{ tail := ⟨1⟩, head := ⟨0⟩, action := some .preserve },
       { tail := ⟨3⟩, head := ⟨1⟩, action := some .create },
       { tail := ⟨3⟩, head := ⟨0⟩, action := some .create },
       { tail := ⟨3⟩, head := ⟨2⟩, action := some .create }]).after ∅
    let r : Rule := { name := "Noted", graph := noted, tagged := by decide +kernel }
    let G : Grammar := { rules := [r] }
    let host := (Graph.assemble
      [{ id := ⟨5⟩, kind := "Topic", domain := .source },
       { id := ⟨6⟩, kind := "CfnTopic", domain := .target },
       { id := ⟨7⟩, kind := "Pair", domain := .correspondence, isDefault := true }]
      [{ tail := ⟨7⟩, head := ⟨5⟩ }, { tail := ⟨7⟩, head := ⟨6⟩ }]).after ∅
    let ids : IdSupply := { next := ⟨8⟩ }
    (∀ k, (G.strategy k).Sound) ∧ (∀ r ∈ G.rules, r.graph.WellFormed) ∧ host.WellFormed ∧
      G.KeepsPairs .source ∧ host.Paired ∧ ids.Beyond host ∧
      G.SupplyLastsUpTo .source 2 { host, ids } ∧
      ∃ o, G.derive .source .target 2 host ids = some o ∧
        (o.host.nodes.length, o.host.edges.length) = (5, 5) ∧ o.host.Paired ∧
        ∃ t, o.result = .ok t := by
  intro topic link record note noted r G host ids
  have hG : ∀ k, (G.strategy k).Sound := fun _ => Strategy.backtracking_sound
  have hnoted : noted.WellFormed :=
    Graph.assemble_keeps_wellFormed _ _ ∅ (Graph.wellFormed_bare none)
  have hrules : ∀ r ∈ G.rules, r.graph.WellFormed := by
    refine List.forall_mem_singleton.mpr ?_
    dsimp only [r]
    exact hnoted
  have hhost : host.WellFormed :=
    Graph.assemble_keeps_wellFormed _ _ ∅ (Graph.wellFormed_bare none)
  have hpairs : G.KeepsPairs .source := by decide +kernel
  have hpaired : host.Paired := by decide +kernel
  have hbeyond : ids.Beyond host := by decide +kernel
  have hlast : G.SupplyLastsUpTo .source 2 { host, ids } :=
    (supplyLasts_of_lastsFor 2 (by decide +kernel)).upTo 2
  have hsize : (G.derive .source .target 2 host ids).map
      (fun o => (o.host.nodes.length, o.host.edges.length)) = some (5, 5) := by
    decide +kernel
  obtain ⟨o, ho, hlength⟩ := Option.map_eq_some_iff.mp hsize
  obtain ⟨-, hderive⟩ :=
    @derivations_keep_pairs G .source host ids hG hrules hhost hpairs hpaired
  obtain ⟨hkept, hok⟩ := hderive .target 2 o ho
  exact ⟨hG, hrules, hhost, hpairs, hpaired, hbeyond, hlast, o, ho, hlength, hkept,
    hok hbeyond hlast⟩

end Grammar

end TripleGrammar
