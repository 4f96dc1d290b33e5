import TripleGrammar.Proofs.Bindings
import TripleGrammar.Proofs.FixedPoints
import TripleGrammar.Proofs.Pairings
import TripleGrammar.Proofs.SettledRuns

/-!
# Runs of axioms

Each firing of an axiom leaves a trace: the node that it has read, a default correspondence and the
twin that this links to it. Traces do not get in each other's way, since they are told apart by the
node and the type of the link. So a run leaves one trace for each node that an axiom can read to
begin with, and nothing else.
-/

namespace TripleGrammar

/-- What a firing of an axiom leaves: the node that it has read, the link and the twin. -/
structure Trace where
  rule : Pairing
  node : NodeId
  link : NodeId
  twin : NodeId

namespace Trace

variable {d : Domain}

/-- The node that is linked in a domain, if the axiom was read from `d`. -/
def endIn (t : Trace) (d x : Domain) : NodeId := if x = d then t.node else t.twin

def linkNode (t : Trace) : Node :=
  { id := t.link, kind := t.rule.linkKind, domain := .correspondence, isDefault := true }

def twinNode (t : Trace) (d : Domain) : Node :=
  { id := t.twin, kind := t.rule.kindIn d.other, domain := d.other }

def edge (t : Trace) (d x : Domain) : Edge := { tail := t.link, head := t.endIn d x }

def nodes (t : Trace) (d : Domain) : List Node := [t.linkNode, t.twinNode d]

def edges (t : Trace) (d : Domain) : List Edge := [t.edge d .source, t.edge d .target]

lemma endIn_self (t : Trace) (d : Domain) : t.endIn d d = t.node := if_pos rfl

lemma endIn_other (t : Trace) (hd : d ≠ .correspondence) : t.endIn d d.other = t.twin :=
  if_neg (Domain.other_ne_self hd)

end Trace

namespace Pairing

variable {a : Pairing} {d : Domain} {host : Graph} {found : Match} {id : NodeId}
  {ids : IdSupply} {β : NodeId → NodeId}

lemma rests_of_not_reads (hd : d ≠ .correspondence) (hhost : host.WellFormed)
    (hnone : ∀ id, ¬a.Reads d host id) : a.rule.Rests d host :=
  Or.inr (Or.inl ((isEmpty_findMatch_iff hd hhost).mpr hnone))

/-- The trace of a firing of the axiom at a node, with ids from the supply. -/
def trace (a : Pairing) (id : NodeId) (ids : IdSupply) : Trace :=
  { rule := a, node := id, link := ids.next, twin := ids.advance.next }

lemma map_made_newTemplates (id : NodeId) (hd : d ≠ .correspondence)
    (hlink : β (a.node .correspondence).id = ids.next)
    (htwin : β (a.node d.other).id = ids.advance.next) :
    (a.rule.newTemplates d).map (·.made β) = (a.trace id ids).nodes d := by
  have hflag : (a.node d.other).isDefault = false :=
    beq_eq_false_iff_ne.mpr (Domain.other_ne_correspondence hd)
  rw [newTemplates_rule a hd]
  simp only [List.map_cons, List.map_nil, Node.made, hlink, htwin, hflag, Bool.false_and]
  rfl

lemma map_placed_newEdges (hd : d ≠ .correspondence) (hnode : β (a.node d).id = id)
    (hlink : β (a.node .correspondence).id = ids.next)
    (htwin : β (a.node d.other).id = ids.advance.next) :
    (a.rule.newEdges d).map (·.placed β) = (a.trace id ids).edges d := by
  have hplaced : ∀ x, x ≠ .correspondence →
      (a.edge x).placed β = (a.trace id ids).edge d x := by
    intro x hx
    have hhead : β (a.node x).id = (a.trace id ids).endIn d x := by
      unfold Trace.endIn
      split
      next heq => rw [heq, hnode]; rfl
      next hne =>
        rw [Domain.eq_other hd hx hne, htwin]
        rfl
    unfold Edge.placed edge
    rw [hlink, hhead]
    rfl
  rw [newEdges_rule a hd]
  unfold edges
  rw [List.map_cons, List.map_cons, hplaced _ (by decide), hplaced _ (by decide)]
  rfl

/-- At a node that is found, the axiom leaves its trace with the next two ids. -/
lemma fire_eq (hd : d ≠ .correspondence) (hhost : host.WellFormed)
    (hfits : host.Fits a.graph d found) (hnode : found.get? (a.node d).id = some id)
    (hroom : ids.RoomBeyond host 2) :
    let t := a.trace id ids
    let host' := host.extend (t.nodes d) (t.edges d)
    a.rule.fire found d host ids = (.ok ⟨2, 2⟩, host', ids.skip 2) ∧ host'.WellFormed ∧
      host'.edges = host.edges ++ t.edges d ∧ (ids.skip 2).Beyond host' := by
  have hlength : (a.rule.newTemplates d).length = 2 := by
    rw [newTemplates_rule a hd]
    rfl
  obtain ⟨nodes, edges, bound, hfire, hids, hadds, hnext⟩ :=
    Rule.exists_fire_of_beyond a.wellFormed_graph hhost hfits (by rw [hlength]; exact hroom)
  rw [hlength] at hfire hids hnext
  let β : NodeId → NodeId := fun k => (bound.get? k).getD k
  have hβ : ∀ k id, bound.get? k = some id → β k = id := fun k id hk => by
    simp only [β, hk]
    rfl
  have hmade := Rule.map_made_of_instances hβ hadds.instances
  have hplaced := Rule.map_placed_of_placeEdge hβ hadds.placed
  rw [hmade, newTemplates_rule a hd] at hids
  obtain ⟨hlink, hrest⟩ := List.cons.inj hids
  obtain ⟨htwin, -⟩ := List.cons.inj hrest
  have hread : β (a.node d).id = id := hβ _ _ (hadds.keeps _ _ hnode)
  rw [map_made_newTemplates id hd hlink htwin] at hmade
  rw [map_placed_newEdges hd hread hlink htwin] at hplaced
  subst hmade
  subst hplaced
  exact ⟨hfire, hadds.wellFormed hhost, hadds.edges_extend, hnext⟩

end Pairing

/-! ### Hosts with traces -/

/-- The host has been extended by the traces and by nothing else. Each is that of one of the axioms
at a node that it could read to begin with, and has taken two ids. -/
structure Traces (axioms : List Pairing) (d : Domain) (host : Graph) (ids : IdSupply)
    (ts : List Trace) (g : Graph) (s : IdSupply) : Prop where
  wellFormed : g.WellFormed
  name : g.name = host.name
  nodes : g.nodes = host.nodes ++ ts.flatMap (·.nodes d)
  edges : g.edges = host.edges ++ ts.flatMap (·.edges d)
  beyond : s.Beyond g
  ids : s = ids.skip (2 * ts.length)
  reads : ∀ t ∈ ts, t.rule ∈ axioms ∧ t.rule.Reads d host t.node
  nodup : (ts.map fun t => (t.rule, t.node)).Nodup

namespace Traces

variable {axioms : List Pairing} {d x : Domain} {host g : Graph} {ids s : IdSupply}
  {ts : List Trace} {t t' : Trace} {n : Node} {e : Edge} {a : Pairing} {k : String} {id : NodeId}

lemma start (hhost : host.WellFormed) (hbeyond : ids.Beyond host) :
    Traces axioms d host ids [] host ids :=
  ⟨hhost, rfl, (List.append_nil _).symm, (List.append_nil _).symm, hbeyond, rfl,
    fun _ ht => absurd ht List.not_mem_nil, List.nodup_nil⟩

section

variable (h : Traces axioms d host ids ts g s)
include h

lemma mem_nodes_iff : n ∈ g.nodes ↔ n ∈ host.nodes ∨ ∃ t ∈ ts, n ∈ t.nodes d := by
  rw [h.nodes, List.mem_append, List.mem_flatMap]

lemma mem_edges_iff : e ∈ g.edges ↔ e ∈ host.edges ∨ ∃ t ∈ ts, e ∈ t.edges d := by
  rw [h.edges, List.mem_append, List.mem_flatMap]

lemma linkNode_mem (ht : t ∈ ts) : t.linkNode ∈ g.nodes :=
  h.mem_nodes_iff.mpr (Or.inr ⟨t, ht, List.mem_cons_self⟩)

lemma twinNode_mem (ht : t ∈ ts) : t.twinNode d ∈ g.nodes :=
  h.mem_nodes_iff.mpr (Or.inr ⟨t, ht, List.mem_cons_of_mem _ List.mem_cons_self⟩)

lemma edge_mem (ht : t ∈ ts) (hx : x ≠ .correspondence) : t.edge d x ∈ g.edges := by
  refine h.mem_edges_iff.mpr (Or.inr ⟨t, ht, ?_⟩)
  unfold Trace.edges
  cases x <;> simp_all

lemma nodup_ids : ((host.nodes ++ ts.flatMap (·.nodes d)).map (·.id)).Nodup :=
  h.nodes ▸ h.wellFormed.nodup

lemma link_ne (hn : n ∈ host.nodes) (ht : t ∈ ts) : n.id ≠ t.link := by
  have hnodup := h.nodup_ids
  rw [List.map_append, List.nodup_append] at hnodup
  exact hnodup.2.2 _ (List.mem_map_of_mem hn) _
    (List.mem_map.mpr ⟨t.linkNode, List.mem_flatMap.mpr ⟨t, ht, List.mem_cons_self⟩, rfl⟩)

lemma link_inj (ht : t ∈ ts) (ht' : t' ∈ ts) (hlink : t.link = t'.link) : t = t' := by
  have hnodup := h.nodup_ids
  rw [List.map_append, List.nodup_append, List.map_flatMap] at hnodup
  exact eq_of_nodup_flatMap hnodup.2.1 ht ht' List.mem_cons_self
    (List.mem_map.mpr ⟨t'.linkNode, List.mem_cons_self, hlink.symm⟩)

lemma twin_inj (ht : t ∈ ts) (ht' : t' ∈ ts) (htwin : t.twin = t'.twin) : t = t' := by
  have hnodup := h.nodup_ids
  rw [List.map_append, List.nodup_append, List.map_flatMap] at hnodup
  exact eq_of_nodup_flatMap hnodup.2.1 ht ht' (List.mem_cons_of_mem _ List.mem_cons_self)
    (List.mem_map.mpr ⟨t'.twinNode d, List.mem_cons_of_mem _ List.mem_cons_self, htwin.symm⟩)

/-! Edges that run from a node of the host, and those that run from the link of a trace. -/

lemma mem_edges_of_tail (hn : n ∈ host.nodes) (he : e ∈ g.edges) (htail : e.tail = n.id) :
    e ∈ host.edges := by
  rcases h.mem_edges_iff.mp he with hold | ⟨t, ht, hnew⟩
  · exact hold
  · have hlink : e.tail = t.link := by
      rcases List.mem_pair.mp hnew with rfl | rfl <;> rfl
    exact absurd (htail.symm.trans hlink) (h.link_ne hn ht)

lemma exists_end_of_tail (hhost : host.WellFormed) (ht : t ∈ ts) (he : e ∈ g.edges)
    (htail : e.tail = t.link) : ∃ x, x ≠ .correspondence ∧ e = t.edge d x := by
  rcases h.mem_edges_iff.mp he with hold | ⟨t', ht', hnew⟩
  · obtain ⟨n, hn, hid⟩ := List.mem_map.mp (hhost.tail_mem e hold)
    exact absurd (hid.trans htail) (h.link_ne hn ht)
  · rcases List.mem_pair.mp hnew with rfl | rfl <;> obtain rfl := h.link_inj ht' ht htail
    · exact ⟨.source, by decide, rfl⟩
    · exact ⟨.target, by decide, rfl⟩

/-! ### Domains -/

lemma domainOf?_eq (hhost : host.WellFormed) (hid : host.contains id = true) :
    g.domainOf? id = host.domainOf? id := by
  obtain ⟨n, hn, rfl, -⟩ := hhost.exists_find? hid
  rw [hhost.domainOf?_of_mem hn, h.wellFormed.domainOf?_of_mem (h.mem_nodes_iff.mpr (Or.inl hn))]

lemma domainOf?_endIn (hd : d ≠ .correspondence) (ht : t ∈ ts) (hx : x ≠ .correspondence) :
    g.domainOf? (t.endIn d x) = some x := by
  unfold Trace.endIn
  split
  next heq =>
    obtain ⟨-, n, hn, hid, hdomain, -⟩ := h.reads t ht
    rw [← hid, heq, ← hdomain]
    exact h.wellFormed.domainOf?_of_mem (h.mem_nodes_iff.mpr (Or.inl hn))
  next hne =>
    rw [Domain.eq_other hd hx hne]
    exact h.wellFormed.domainOf?_of_mem (h.twinNode_mem ht)

/-! ### Links -/

lemma joins_iff (hhost : host.WellFormed) (hn : n ∈ host.nodes) {ends : List NodeId} :
    g.Joins x n.id ends ↔ host.Joins x n.id ends :=
  Graph.joins_congr hhost h.wellFormed (fun _ hm => h.mem_nodes_iff.mpr (Or.inl hm)) fun _ ht =>
    ⟨fun he => h.mem_edges_of_tail hn he ht, fun he => h.mem_edges_iff.mpr (Or.inl he)⟩

/-- The link of a trace joins its end in either domain to no other node there. -/
lemma joins_link (hhost : host.WellFormed) (hd : d ≠ .correspondence) (ht : t ∈ ts)
    (hx : x ≠ .correspondence) : g.Joins x t.link [t.endIn d x] := by
  intro id
  rw [List.mem_singleton]
  constructor
  · rintro ⟨e, he, htail, rfl, hdomain⟩
    obtain ⟨y, hy, rfl⟩ := h.exists_end_of_tail hhost ht he htail
    obtain rfl := Option.some.inj ((h.domainOf?_endIn hd ht hy).symm.trans hdomain)
    rfl
  · rintro rfl
    exact ⟨t.edge d x, h.edge_mem ht hx, rfl, rfl, h.domainOf?_endIn hd ht hx⟩

lemma hasLink_iff (hhost : host.WellFormed) (hd : d ≠ .correspondence)
    (hx : x ≠ .correspondence) : g.HasLink x k id ↔
      host.HasLink x k id ∨ ∃ t ∈ ts, t.rule.linkKind = k ∧ t.endIn d x = id := by
  constructor
  · rintro ⟨c, hc, hcd, rfl, hjoins⟩
    rcases h.mem_nodes_iff.mp hc with hold | ⟨t, ht, hnew⟩
    · exact Or.inl ⟨c, hold, hcd, rfl, (h.joins_iff hhost hold).mp hjoins⟩
    · rcases List.mem_pair.mp hnew with rfl | rfl
      · have hend := (hjoins (t.endIn d x)).symm.trans (h.joins_link hhost hd ht hx _)
        exact Or.inr ⟨t, ht, rfl, by simpa using hend⟩
      · exact absurd hcd (Domain.other_ne_correspondence hd)
  · rintro (⟨c, hc, hcd, hck, hjoins⟩ | ⟨t, ht, rfl, rfl⟩)
    · exact ⟨c, h.mem_nodes_iff.mpr (Or.inl hc), hcd, hck, (h.joins_iff hhost hc).mpr hjoins⟩
    · exact ⟨t.linkNode, h.linkNode_mem ht, rfl, rfl, h.joins_link hhost hd ht hx⟩

/-- An axiom can still read what it could read to begin with, but for the nodes that a trace with
its type of link has. -/
lemma reads_iff (hhost : host.WellFormed) (hd : d ≠ .correspondence) : a.Reads d g id ↔
    a.Reads d host id ∧ ∀ t ∈ ts, t.rule.linkKind = a.linkKind → t.node ≠ id := by
  have hlink : g.HasLink d a.linkKind id ↔
      host.HasLink d a.linkKind id ∨ ∃ t ∈ ts, t.rule.linkKind = a.linkKind ∧ t.node = id := by
    rw [h.hasLink_iff hhost hd hd]
    simp only [Trace.endIn_self]
  have hmem : ∀ n, n ∈ g.nodes ∧ n.domain = d ↔ n ∈ host.nodes ∧ n.domain = d := by
    intro n
    refine and_congr_left fun hdomain => ⟨fun hn => ?_, fun hn => h.mem_nodes_iff.mpr (Or.inl hn)⟩
    rcases h.mem_nodes_iff.mp hn with hold | ⟨t, ht, hnew⟩
    · exact hold
    · rcases List.mem_pair.mp hnew with rfl | rfl
      · exact absurd hdomain.symm hd
      · exact absurd hdomain (Domain.other_ne_self hd)
  unfold Pairing.Reads
  constructor
  · rintro ⟨n, hn, rfl, hdomain, hkind, hnew⟩
    obtain ⟨hhostlink, htraces⟩ := not_or.mp (mt hlink.mpr hnew)
    exact ⟨⟨n, ((hmem n).mp ⟨hn, hdomain⟩).1, rfl, hdomain, hkind, hhostlink⟩,
      fun t ht hk heq => htraces ⟨t, ht, hk, heq⟩⟩
  · rintro ⟨⟨n, hn, rfl, hdomain, hkind, hnew⟩, htraces⟩
    refine ⟨n, ((hmem n).mpr ⟨hn, hdomain⟩).1, rfl, hdomain, hkind, fun hg => ?_⟩
    rcases hlink.mp hg with hold | ⟨t, ht, hk, heq⟩
    · exact hnew hold
    · exact htraces t ht hk heq

/-! ### Firings -/

/-- A node that an axiom can still read is not one at which the axiom has fired. -/
lemma nodup_concat (hhost : host.WellFormed) (hd : d ≠ .correspondence) (hreads : a.Reads d g id) :
    ((ts.map fun t => (t.rule, t.node)) ++ [(a, id)]).Nodup := by
  rw [← List.concat_eq_append, List.nodup_concat]
  refine ⟨fun hmem => ?_, h.nodup⟩
  obtain ⟨t, ht, heq⟩ := List.mem_map.mp hmem
  obtain ⟨rfl, rfl⟩ := Prod.mk.inj heq
  exact ((h.reads_iff hhost hd).mp hreads).2 t ht rfl rfl

lemma concat (hhost : host.WellFormed) (hd : d ≠ .correspondence) (ha : a ∈ axioms)
    (hreads : a.Reads d g id) {g' : Graph} (hwf : g'.WellFormed) (hname : g'.name = g.name)
    (hnodes : g'.nodes = g.nodes ++ (a.trace id s).nodes d)
    (hedges : g'.edges = g.edges ++ (a.trace id s).edges d) (hbeyond : (s.skip 2).Beyond g') :
    Traces axioms d host ids (ts ++ [a.trace id s]) g' (s.skip 2) := by
  refine ⟨hwf, hname.trans h.name, ?_, ?_, hbeyond, ?_, ?_, ?_⟩
  · rw [hnodes, h.nodes, List.flatMap_append, List.flatMap_singleton, List.append_assoc]
  · rw [hedges, h.edges, List.flatMap_append, List.flatMap_singleton, List.append_assoc]
  · rw [h.ids, IdSupply.skip_skip, List.length_append, List.length_singleton, Nat.mul_add]
  · intro t ht
    rcases List.mem_append.mp ht with hold | hnew
    · exact h.reads t hold
    · obtain rfl := List.mem_singleton.mp hnew
      exact ⟨ha, ((h.reads_iff hhost hd).mp hreads).1⟩
  · rw [List.map_append]
    exact h.nodup_concat hhost hd hreads

end

end Traces

/-! ### Runs -/

/-- The axioms have at most `N` nodes to read, a node counted once for each axiom. -/
def ReadsAtMost (axioms : List Pairing) (d : Domain) (host : Graph) (N : Nat) : Prop :=
  ∀ l : List (Pairing × NodeId), l.Nodup → (∀ p ∈ l, p.1 ∈ axioms ∧ p.1.Reads d host p.2) →
    l.length ≤ N

/-- If types tell the axioms apart, a node is read by one axiom at most. -/
lemma readsAtMost_length {axioms : List Pairing} {d : Domain} {host : Graph}
    (hhost : host.WellFormed) (hkinds : (axioms.map (·.kindIn d)).Nodup) :
    ReadsAtMost axioms d host host.nodes.length := by
  intro l hl hreads
  have hnodup : (l.map Prod.snd).Nodup := by
    refine hl.map_on fun p hp q hq hid => Prod.ext ?_ hid
    obtain ⟨hpa, n, hn, hnid, -, hnk, -⟩ := hreads p hp
    obtain ⟨hqa, m, hm, hmid, -, hmk, -⟩ := hreads q hq
    obtain rfl := hhost.eq_of_id_eq hn hm (by rw [hnid, hmid, hid])
    exact List.inj_on_of_nodup_map hkinds hpa hqa (hnk.symm.trans hmk)
  have hsub : l.map Prod.snd ⊆ host.nodes.map (·.id) := by
    intro id hid
    obtain ⟨p, hp, rfl⟩ := List.mem_map.mp hid
    obtain ⟨-, n, hn, hnid, -⟩ := hreads p hp
    exact List.mem_map.mpr ⟨n, hn, hnid⟩
  have hle := (List.subperm_of_subset hnodup hsub).length_le
  rwa [List.length_map, List.length_map] at hle

namespace Traces

variable {axioms rules : List Pairing} {d : Domain} {host g : Graph} {ids s : IdSupply}
  {ts : List Trace} {a : Pairing} {id : NodeId} {N : Nat} {G : Grammar} {p q : Progress}

lemma length_le (h : Traces axioms d host ids ts g s) (hN : ReadsAtMost axioms d host N) :
    ts.length ≤ N := by
  have hle := hN _ h.nodup (by
    intro p hp
    obtain ⟨t, ht, rfl⟩ := List.mem_map.mp hp
    exact h.reads t ht)
  rwa [List.length_map] at hle

lemma length_lt (h : Traces axioms d host ids ts g s) (hhost : host.WellFormed)
    (hd : d ≠ .correspondence) (hN : ReadsAtMost axioms d host N) (ha : a ∈ axioms)
    (hreads : a.Reads d g id) : ts.length < N := by
  have hle := hN _ (h.nodup_concat hhost hd hreads) (by
    intro p hp
    rcases List.mem_append.mp hp with hold | hnew
    · obtain ⟨t, ht, rfl⟩ := List.mem_map.mp hold
      exact h.reads t ht
    · obtain rfl := List.mem_singleton.mp hnew
      exact ⟨ha, ((h.reads_iff hhost hd).mp hreads).1⟩)
  rw [List.length_append, List.length_map, List.length_singleton] at hle
  exact hle

section

variable (hG : ∀ k, G.strategy k = .backtracking) (hhost : host.WellFormed)
  (hd : d ≠ .correspondence) (hN : ReadsAtMost axioms d host N)
  (hroom : ids.RoomBeyond host (2 * N))
include hG hhost hd hN hroom

/-- An axiom that is tried leaves a trace, or there is no node for it to read. -/
lemma attempt (h : Traces axioms d host ids ts p.host p.ids) (ha : a ∈ axioms) :
    ((∀ id, ¬a.Reads d p.host id) ∧
        ∃ q, G.attempt d a.rule p = .idle q ∧ q.host = p.host ∧ q.ids = p.ids) ∨
      ∃ found q t, G.attempt d a.rule p = .fired found q ∧ t.rule = a ∧
        Traces axioms d host ids (ts ++ [t]) q.host q.ids := by
  have hsame := Grammar.findMatch_eq_nextMatch (d := d) hG a.rule p
  by_cases hfound : (p.host.findMatch a.graph d).isEmpty = true
  · obtain ⟨q, hq, hqhost, hqids, -, -⟩ :=
      Grammar.exists_attempt_eq_idle (Or.inr (hsame ▸ hfound))
    exact Or.inl ⟨(Pairing.isEmpty_findMatch_iff hd h.wellFormed).mp hfound, q, hq, hqhost, hqids⟩
  · rw [Bool.not_eq_true] at hfound
    obtain ⟨id, hid, hreads⟩ := Pairing.exists_reads hd h.wellFormed hfound
    have hfits : p.host.Fits a.graph d (p.host.findMatch a.graph d) :=
      (Graph.fits_of_searchMatch Strategy.backtracking_sound h.wellFormed a.wellFormed_graph
        hfound).1
    have hlt := h.length_lt hhost hd hN ha hreads
    have hlasts := hroom.lasts
    have hnext : p.ids.next.raw.toNat = ids.next.raw.toNat + 2 * ts.length := by
      rw [h.ids, IdSupply.toNat_next_skip, Nat.mod_eq_of_lt (by omega)]
    obtain ⟨hfire, hwf, hedges, hbeyond⟩ :=
      Pairing.fire_eq hd h.wellFormed hfits hid ⟨h.beyond, by omega⟩
    obtain ⟨q, hq, hqhost, hqids, -, -⟩ :=
      Grammar.exists_attempt_of_fire_ok a.hasCreation_rule (hsame ▸ hfound) (hsame ▸ hfire)
    refine Or.inr ⟨_, q, a.trace id p.ids, hq, rfl, ?_⟩
    rw [hqhost, hqids]
    exact h.concat hhost hd ha hreads hwf Graph.name_extend Graph.nodes_extend hedges hbeyond

lemma pass (h : Traces axioms d host ids ts p.host p.ids) (hrules : rules ⊆ axioms) :
    ((∀ a ∈ rules, ∀ id, ¬a.Reads d p.host id) ∧
        ∃ q, G.pass d (rules.map (·.rule)) p = .ended .settled q ∧ q.host = p.host ∧
          q.ids = p.ids) ∨
      ∃ found q t, G.pass d (rules.map (·.rule)) p = .fired t.rule.rule found q ∧
        Traces axioms d host ids (ts ++ [t]) q.host q.ids := by
  induction rules generalizing p with
  | nil => exact Or.inl ⟨fun a ha => absurd ha List.not_mem_nil, p, rfl, rfl, rfl⟩
  | cons a rules ih =>
    obtain ⟨ha, hrest⟩ := List.cons_subset.mp hrules
    rw [List.map_cons]
    unfold Grammar.pass
    rcases h.attempt hG hhost hd hN hroom ha with
      ⟨hnone, p', hattempt, hp, hids⟩ | ⟨found, q, t, hattempt, rfl, htraces⟩
    · rw [hattempt]
      rw [← hp, ← hids] at h
      rcases ih h hrest with ⟨hothers, q, hpass, hq, hqids⟩ | hfired
      · rw [hp] at hothers hq
        exact Or.inl ⟨List.forall_mem_cons.mpr ⟨hnone, hothers⟩, q, hpass, hq, hqids.trans hids⟩
      · exact Or.inr hfired
    · rw [hattempt]
      exact Or.inr ⟨found, q, t, rfl, htraces⟩

/-- The sites of a run of axioms are those of its traces. -/
lemma exists_of_leads (hrules : G.rules = axioms.map (·.rule)) {sites : List Site}
    (hq : G.Leads d { host, ids } sites q) :
    ∃ ts, Traces axioms d host ids ts q.host q.ids ∧
      ts.map (·.rule.rule) = sites.map (·.rule) := by
  induction hq with
  | start => exact ⟨[], start hhost hroom.beyond, rfl⟩
  | @fired sites q q' r found _ hpass ih =>
    obtain ⟨ts, h, hsites⟩ := ih
    rw [hrules] at hpass
    rcases pass hG hhost hd hN hroom (p := q.beginPass) h (List.Subset.refl _) with
      ⟨-, q'', hended, -⟩ | ⟨found', q'', t, hfired, htraces⟩
    · cases hpass.symm.trans hended
    · cases hpass.symm.trans hfired
      exact ⟨ts ++ [t], htraces, by rw [List.map_append, List.map_append, hsites]; rfl⟩

/-- A run of axioms leads to a point at which no axiom can read any node. -/
theorem exists_leads (hrules : G.rules = axioms.map (·.rule)) :
    ∃ sites ts q, G.Leads d { host, ids } sites q ∧ Traces axioms d host ids ts q.host q.ids ∧
      ts.map (·.rule.rule) = sites.map (·.rule) ∧ ∀ a ∈ axioms, ∀ id, ¬a.Reads d q.host id := by
  have htraces := fun sites q => @exists_of_leads axioms d host ids N G q hG hhost hd hN hroom
    hrules sites
  have hbound : ∀ sites q, G.Leads d { host, ids } sites q → sites.length ≤ N := by
    intro sites q hq
    obtain ⟨ts, h, hsites⟩ := htraces sites q hq
    rw [← List.length_map (·.rule), ← hsites, List.length_map]
    exact h.length_le hN
  obtain ⟨sites, q, ending, q', hleads, hlast⟩ := Grammar.exists_leads_of_bounded hbound
  obtain ⟨ts, h, hsites⟩ := htraces sites q hleads
  rw [hrules] at hlast
  rcases pass hG hhost hd hN hroom (p := q.beginPass) h (List.Subset.refl _) with
    ⟨hnone, -⟩ | ⟨found', q'', t, hfired, -⟩
  · exact ⟨sites, ts, q, hleads, h, hsites, hnone⟩
  · cases hlast.symm.trans hfired

/-- There the run settles. -/
theorem exists_settles (hrules : G.rules = axioms.map (·.rule)) :
    ∃ sites ts q, G.Settles d { host, ids } sites q ∧ Traces axioms d host ids ts q.host q.ids ∧
      ts.map (·.rule.rule) = sites.map (·.rule) ∧ ∀ a ∈ axioms, ∀ id, ¬a.Reads d q.host id := by
  obtain ⟨sites, ts, q, hleads, h, hsites, hnone⟩ :=
    exists_leads hG hhost hd hN hroom hrules
  have hrests : ∀ r ∈ G.rules, r.Rests d q.beginPass.host := by
    rw [hrules]
    intro r hr
    obtain ⟨a, ha, rfl⟩ := List.mem_map.mp hr
    exact Pairing.rests_of_not_reads hd h.wellFormed (hnone a ha)
  obtain ⟨q', hpass, hq, hids, -, -⟩ := Grammar.pass_of_rests hG hrests
  change q'.host = q.host at hq
  change q'.ids = q.ids at hids
  rw [← hq, ← hids] at h
  rw [← hq] at hnone
  exact ⟨sites, ts, q', ⟨q, hleads, hpass⟩, h, hsites, hnone⟩

/-- A run of axioms settles, in one pass more than it leaves traces, and then no axiom can read any
node. -/
theorem exists_run (hrules : G.rules = axioms.map (·.rule)) :
    ∃ ts q, (∀ fuel, N + 1 ≤ fuel → G.run d fuel { host, ids } = some (.settled, q)) ∧
      Traces axioms d host ids ts q.host q.ids ∧ q.passes = ts.length + 1 ∧
      ∀ a ∈ axioms, ∀ id, ¬a.Reads d q.host id := by
  obtain ⟨sites, ts, q, hsettles, h, hsites, hnone⟩ :=
    exists_settles hG hhost hd hN hroom hrules
  have hlength : ts.length = sites.length := by
    rw [← List.length_map (·.rule.rule), hsites, List.length_map]
  have hle := h.length_le hN
  have hpasses := hsettles.passes
  change q.passes = 0 + sites.length + 1 at hpasses
  exact ⟨ts, q, fun fuel hfuel => hsettles.run (by omega), h, by omega, hnone⟩

end

/-- If types of links tell the axioms apart, a run has dealt with each node that an axiom could read
to begin with. -/
lemma exists_trace (h : Traces axioms d host ids ts g s) (hhost : host.WellFormed)
    (hd : d ≠ .correspondence) (hlinks : (axioms.map (·.linkKind)).Nodup) (ha : a ∈ axioms)
    (hnone : ¬a.Reads d g id) (hreads : a.Reads d host id) :
    ∃ t ∈ ts, t.rule = a ∧ t.node = id := by
  rw [h.reads_iff hhost hd] at hnone
  simp only [hreads, true_and, not_forall, not_not] at hnone
  obtain ⟨t, ht, hk, hid⟩ := hnone
  exact ⟨t, ht, List.inj_on_of_nodup_map hlinks (h.reads t ht).1 ha hk, hid⟩

/-- In a host without links that is each node of the type that the axiom reads. -/
lemma exists_trace_of_kind (h : Traces axioms d host ids ts g s) (hhost : host.WellFormed)
    (hd : d ≠ .correspondence) (hplain : ∀ n ∈ host.nodes, n.domain = d)
    (hlinks : (axioms.map (·.linkKind)).Nodup) (ha : a ∈ axioms) (hnone : ∀ id, ¬a.Reads d g id)
    {n : Node} (hn : n ∈ host.nodes) (hkind : n.kind = a.kindIn d) :
    ∃ t ∈ ts, t.rule = a ∧ t.node = n.id :=
  h.exists_trace hhost hd hlinks ha (hnone n.id) ⟨n, hn, rfl, hplain n hn, hkind,
    fun ⟨c, hc, hcd, _⟩ => hd ((hplain c hc).symm.trans hcd)⟩

/-- If types of nodes tell the axioms apart, no node has two traces. -/
lemma node_inj (h : Traces axioms d host ids ts g s) (hhost : host.WellFormed)
    (hkinds : (axioms.map (·.kindIn d)).Nodup) {t t' : Trace} (ht : t ∈ ts) (ht' : t' ∈ ts)
    (hnode : t.node = t'.node) : t = t' := by
  obtain ⟨ha, n, hn, hid, -, hkind, -⟩ := h.reads t ht
  obtain ⟨ha', n', hn', hid', -, hkind', -⟩ := h.reads t' ht'
  obtain rfl := hhost.eq_of_id_eq hn hn' (by rw [hid, hid', hnode])
  have hrule := List.inj_on_of_nodup_map hkinds ha ha' (hkind.symm.trans hkind')
  exact List.inj_on_of_nodup_map h.nodup ht ht' (Prod.ext hrule hnode)

end Traces

end TripleGrammar
