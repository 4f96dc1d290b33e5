import TripleGrammar.Proofs.Edits
import TripleGrammar.Proofs.Instances

/-!
# Firing a rule

A rule that fires at a match adds one node for each created node outside the context, and one edge
for each created edge that does not lie inside the domain that is read. It can only fail because an
id is in use already, and then the host stays as it was.
-/

namespace TripleGrammar

namespace Graph

variable {host : Graph} {nodes : List Node} {edges : List Edge} {id : NodeId}

/-- The graph with further nodes, and with further edges between its nodes and these. -/
def extend (host : Graph) (nodes : List Node) (edges : List Edge) : Graph :=
  edges.foldl join (nodes.foldl enter host)

lemma name_extend : (host.extend nodes edges).name = host.name := by
  unfold extend
  rw [name_foldl_join, name_foldl_enter]

lemma nodes_extend : (host.extend nodes edges).nodes = host.nodes ++ nodes := by
  unfold extend
  rw [nodes_foldl_join, nodes_foldl_enter]

lemma edges_extend (hedges : (nodes.foldl enter host).Bounds edges) :
    (host.extend nodes edges).edges = host.edges ++ edges := by
  unfold extend
  rw [edges_foldl_join hedges, edges_foldl_enter]

lemma foldl_enterNew_eq (hnodup : (nodes.map (·.id)).Nodup)
    (hfresh : ∀ n ∈ nodes, host.contains n.id = false) :
    nodes.foldl enterNew host = nodes.foldl enter host := by
  induction nodes generalizing host with
  | nil => rfl
  | cons n nodes ih =>
    rw [List.foldl_cons, List.foldl_cons,
      enterNew_of_not_contains (hfresh n List.mem_cons_self)]
    exact ih (nodup_ids_cons hnodup).2 (contains_enter_eq_false hnodup hfresh)

lemma run_forM_addNode (hdefault : ∀ n ∈ nodes, n.isDefault = true → n.domain = .correspondence) :
    (nodes.forM addNode).run host = .ok () (nodes.foldl enterNew host) := by
  induction nodes generalizing host with
  | nil => rfl
  | cons n nodes ih =>
    rw [run_forM_cons (run_addNode_ok (hdefault n List.mem_cons_self))]
    exact ih fun m hm => hdefault m (List.mem_cons_of_mem _ hm)

end Graph

namespace Rule

variable {r : Rule} {d : Domain} {host created : Graph} {found bound : Match} {nodes : List Node}
  {edges : List Edge} {e e' : Edge} {ids : IdSupply}

lemma placeEdge_eq_ok_iff : placeEdge bound e = .ok e' ↔
    bound.get? e.tail = some e'.tail ∧ bound.get? e.head = some e'.head ∧ e'.kind = e.kind ∧
      e'.action = none := by
  unfold placeEdge
  constructor
  · intro h
    split at h
    next tail head ht hh =>
      obtain rfl := Except.ok.inj h
      exact ⟨ht, hh, rfl, rfl⟩
    · cases h
    · cases h
  · rintro ⟨ht, hh, hkind, haction⟩
    obtain ⟨tail, head, kind, action⟩ := e'
    obtain rfl := hkind
    obtain rfl := haction
    rw [ht, hh]

/-! ### Adding edges -/

lemma run_linkEdge_inside (hcreated : created.WellFormed)
    (hinside : created.edgeInside d e = true) :
    (linkEdge created bound d e).run host = .ok 0 host := by
  unfold Graph.edgeInside at hinside
  simp only [Bool.and_eq_true, beq_iff_eq, hcreated.domainOf?_iff] at hinside
  obtain ⟨⟨t, ht, htid, htd⟩, h, hh, hhid, hhd⟩ := hinside
  have htail := hcreated.find?_of_mem ht
  have hhead := hcreated.find?_of_mem hh
  rw [htid] at htail
  rw [hhid] at hhead
  unfold linkEdge Graph.node
  rw [htail, hhead]
  simp only [EStateM.run_bind, Graph.run_ofExcept, htd, hhd, beq_self_eq_true, Bool.and_self,
    if_true, EStateM.run_pure]

lemma run_linkEdge_outside (hcreated : created.WellFormed)
    (ht : created.contains e.tail = true) (hh : created.contains e.head = true)
    (hinside : created.edgeInside d e = false) (hplace : placeEdge bound e = .ok e')
    (ht' : host.contains e'.tail = true) (hh' : host.contains e'.head = true) :
    (linkEdge created bound d e).run host = .ok 1 (host.join e') := by
  obtain ⟨t, -, -, htail⟩ := hcreated.exists_find? ht
  obtain ⟨h, -, -, hhead⟩ := hcreated.exists_find? hh
  have houtside : (t.domain == d && h.domain == d) = false := by
    unfold Graph.edgeInside Graph.domainOf? at hinside
    rw [htail, hhead] at hinside
    exact hinside
  unfold linkEdge Graph.node
  rw [htail, hhead]
  simp only [EStateM.run_bind, Graph.run_ofExcept, houtside, Bool.false_eq_true, if_false, hplace,
    Graph.run_addEdge, ht', hh', if_true, EStateM.run_pure]

/-- The edges outside the domain are placed and added, if the match has their ends and the host has
the nodes to which these are bound. -/
lemma run_linkEdges (hcreated : created.WellFormed) {es : List Edge} (hes : created.Bounds es)
    (hbound : ∀ e ∈ es, ∃ e', placeEdge bound e = .ok e' ∧
      host.contains e'.tail = true ∧ host.contains e'.head = true) (count : Nat) :
    ∃ edges, List.Forall₂ (fun e e' => placeEdge bound e = .ok e')
        (es.filter fun e => !created.edgeInside d e) edges ∧ host.Bounds edges ∧
      (es.foldlM (fun count e => return count + (← linkEdge created bound d e)) count).run host =
        .ok (count + edges.length) (edges.foldl Graph.join host) := by
  induction es generalizing host count with
  | nil => exact ⟨[], List.Forall₂.nil, fun _ h => absurd h List.not_mem_nil, rfl⟩
  | cons e es ih =>
    obtain ⟨ht, hh⟩ := hes e List.mem_cons_self
    obtain ⟨e', hplace, ht', hh'⟩ := hbound e List.mem_cons_self
    have hes' : created.Bounds es := fun x hx => hes x (List.mem_cons_of_mem _ hx)
    have hbound' : ∀ e ∈ es, ∃ e', placeEdge bound e = .ok e' ∧
        host.contains e'.tail = true ∧ host.contains e'.head = true :=
      fun x hx => hbound x (List.mem_cons_of_mem _ hx)
    by_cases hinside : created.edgeInside d e = true
    · obtain ⟨edges, hplaced, hends, hrun⟩ := ih hes' hbound' (count + 0)
      refine ⟨edges, ?_, hends, ?_⟩
      · rw [List.filter_cons_of_neg (by simp [hinside])]
        exact hplaced
      · rw [List.foldlM_cons]
        simp only [EStateM.run_bind, run_linkEdge_inside hcreated hinside, EStateM.run_pure]
        exact hrun
    · have houtside := Bool.eq_false_iff.mpr hinside
      obtain ⟨edges, hplaced, hends, hrun⟩ := @ih (host.join e') hes'
        (by simpa only [Graph.contains_join] using hbound') (count + 1)
      refine ⟨e' :: edges, ?_, ?_, ?_⟩
      · rw [List.filter_cons_of_pos (by simp [houtside])]
        exact List.Forall₂.cons hplace hplaced
      · intro x hx
        rcases List.mem_cons.mp hx with rfl | hx
        · exact ⟨ht', hh'⟩
        · simpa only [Graph.contains_join] using hends x hx
      · rw [List.foldlM_cons]
        simp only [EStateM.run_bind,
          run_linkEdge_outside hcreated ht hh houtside hplace ht' hh', EStateM.run_pure]
        rw [hrun, List.length_cons, List.foldl_cons]
        congr 1
        omega

/-! ### What a firing adds -/

/-- The created nodes that are not part of the context. -/
def newTemplates (r : Rule) (d : Domain) : List Node :=
  r.graph.creationNodes.filter fun n => !(r.graph.context d).contains n.id

/-- The created edges that do not lie inside the domain. -/
def newEdges (r : Rule) (d : Domain) : List Edge :=
  (r.graph.edges.filter (·.hasAction .create)).filter fun e => !r.graph.edgeInside d e

lemma mem_of_mem_newTemplates {t : Node} (ht : t ∈ r.newTemplates d) : t ∈ r.graph.nodes :=
  (List.mem_filter.mp (List.mem_filter.mp ht).1).1

lemma mem_of_mem_newEdges (he : e ∈ r.newEdges d) :
    e ∈ r.graph.edges ∧ e.hasAction .create = true ∧ r.graph.edgeInside d e = false := by
  obtain ⟨hcreated, hout⟩ := List.mem_filter.mp he
  obtain ⟨hmem, hcreate⟩ := List.mem_filter.mp hcreated
  exact ⟨hmem, hcreate, by simpa using hout⟩

lemma mem_newEdges (he : e ∈ r.graph.edges) (hcreate : e.hasAction .create = true)
    (hout : r.graph.edgeInside d e = false) : e ∈ r.newEdges d :=
  List.mem_filter.mpr ⟨List.mem_filter.mpr ⟨he, hcreate⟩, by simp [hout]⟩

/-- The nodes and edges with which a firing extends the host, and the match that it leads to. -/
structure Adds (r : Rule) (d : Domain) (host : Graph) (found : Match) (nodes : List Node)
    (edges : List Edge) (bound : Match) : Prop where
  instances : List.Forall₂ (IsInstance bound) (r.newTemplates d) nodes
  fresh : ∀ n ∈ nodes, host.contains n.id = false
  nodup : (nodes.map (·.id)).Nodup
  placed : List.Forall₂ (fun e e' => placeEdge bound e = .ok e') (r.newEdges d) edges
  ends : (nodes.foldl Graph.enter host).Bounds edges
  keeps : ∀ k id, found.get? k = some id → bound.get? k = some id
  bound : ∀ k id, bound.get? k = some id → found.get? k = some id ∨ ∃ n ∈ nodes, n.id = id

lemma contains_or_mem_newTemplates {n : Node} (hn : n ∈ r.graph.nodes) :
    (r.graph.context d).contains n.id = true ∨ n ∈ r.newTemplates d := by
  by_cases hcontext : (r.graph.context d).contains n.id = true
  · exact Or.inl hcontext
  · obtain ⟨action, haction⟩ := Option.isSome_iff_exists.mp (r.tagged.1 n hn)
    refine Or.inr (List.mem_filter.mpr ⟨List.mem_filter.mpr ⟨hn, ?_⟩, by simp [hcontext]⟩)
    cases action with
    | create => simp [Node.hasAction, haction]
    | preserve =>
      exact absurd (Graph.context_contains hn (Or.inr (by simp [Node.hasAction, haction]))) hcontext

lemma nodup_creationNodes (hrule : r.graph.WellFormed) :
    (r.graph.creationNodes.map (·.id)).Nodup :=
  hrule.nodup.sublist (List.filter_sublist.map _)

/-- The created nodes that a match of the context does not bind are those outside the context. -/
lemma filter_unbound (hfits : host.Fits r.graph d found) :
    (r.graph.creationNodes.filter fun t => !found.contains t.id) = r.newTemplates d := by
  apply List.filter_congr
  intro t _
  rw [Bool.eq_iff_iff.mpr (hfits.contains_iff t.id)]

lemma exists_bound (hfits : host.Fits r.graph d found)
    (hinstances : List.Forall₂ (IsInstance bound) (r.newTemplates d) nodes)
    (hkeeps : ∀ k id, found.get? k = some id → bound.get? k = some id) {k : NodeId}
    (hk : k ∈ r.graph.nodes.map (·.id)) : ∃ id, bound.get? k = some id := by
  obtain ⟨n, hn, rfl⟩ := List.mem_map.mp hk
  rcases @contains_or_mem_newTemplates r d n hn with hcontext | hnew
  · obtain ⟨id, hid⟩ := Option.isSome_iff_exists.mp ((hfits.contains_iff _).mpr hcontext)
    exact ⟨id, hkeeps _ _ hid⟩
  · obtain ⟨m, -, hinst⟩ := exists_right_of_forall₂ hinstances hnew
    exact ⟨m.id, hinst.bound⟩

lemma contains_of_get? (hrule : r.graph.WellFormed) (hhost : host.WellFormed)
    (hfits : host.Fits r.graph d found) {k id : NodeId} (hk : found.get? k = some id) :
    host.contains id = true := by
  obtain ⟨n, hn, rfl⟩ := hfits.exists_rule_node hrule hk
  obtain ⟨m, hm, rfl, -⟩ := hfits.exists_host_node hrule hn hk
  exact hhost.contains_of_mem hm

lemma newEdges_eq (hrule : r.graph.WellFormed) :
    (r.graph.creator.edges.filter fun e => !r.graph.creator.edgeInside d e) = r.newEdges d := by
  have hpart := Graph.isPart_creator hrule
  have hinside : ∀ e ∈ r.graph.creator.edges,
      r.graph.creator.edgeInside d e = r.graph.edgeInside d e := by
    intro e he
    unfold Graph.edgeInside Graph.domainOf?
    rw [hpart.find?_eq hrule (hpart.wellFormed.contains_tail he),
      hpart.find?_eq hrule (hpart.wellFormed.contains_head he)]
  unfold newEdges
  rw [← Graph.edges_creator hrule]
  apply List.filter_congr
  intro e he
  rw [hinside e he]

lemma run_install (hrule : r.graph.WellFormed) (hhost : host.WellFormed)
    (hfits : host.Fits r.graph d found)
    (hinstances : List.Forall₂ (IsInstance bound) (r.newTemplates d) nodes)
    (hfresh : ∀ n ∈ nodes, host.contains n.id = false) (hnodup : (nodes.map (·.id)).Nodup)
    (hkeeps : ∀ k id, found.get? k = some id → bound.get? k = some id)
    (hbound : ∀ k id, bound.get? k = some id → found.get? k = some id ∨ ∃ n ∈ nodes, n.id = id) :
    ∃ edges, r.Adds d host found nodes edges bound ∧
      (r.install nodes bound d).run host =
        .ok ⟨nodes.length, edges.length⟩ (host.extend nodes edges) := by
  have hdefault : ∀ n ∈ nodes, n.isDefault = true → n.domain = .correspondence := by
    intro n hn hd
    obtain ⟨t, -, hinst⟩ := exists_left_of_forall₂ hinstances hn
    exact hinst.correspondence hd
  have hcreator := (Graph.isPart_creator hrule).wellFormed
  have hcontains : ∀ k id, bound.get? k = some id →
      (nodes.foldl Graph.enter host).contains id = true := by
    intro k id hk
    rw [Graph.contains_foldl_enter]
    rcases hbound k id hk with hk | hn
    · exact Or.inl (contains_of_get? hrule hhost hfits hk)
    · exact Or.inr hn
  have hplace : ∀ e ∈ r.graph.creator.edges, ∃ e', placeEdge bound e = .ok e' ∧
      (nodes.foldl Graph.enter host).contains e'.tail = true ∧
      (nodes.foldl Graph.enter host).contains e'.head = true := by
    intro e he
    rw [Graph.edges_creator hrule] at he
    have hmem := (List.mem_filter.mp he).1
    obtain ⟨tail, ht⟩ := exists_bound hfits hinstances hkeeps (hrule.tail_mem e hmem)
    obtain ⟨head, hh⟩ := exists_bound hfits hinstances hkeeps (hrule.head_mem e hmem)
    refine ⟨{ tail, head, kind := e.kind }, ?_, hcontains _ _ ht, hcontains _ _ hh⟩
    exact placeEdge_eq_ok_iff.mpr ⟨ht, hh, rfl, rfl⟩
  obtain ⟨edges, hplaced, hends, hrun⟩ := @run_linkEdges d _ _ bound hcreator _
    (hcreator.bounds (List.Subset.refl _)) hplace 0
  rw [newEdges_eq hrule] at hplaced
  refine ⟨edges, ⟨hinstances, hfresh, hnodup, hplaced, hends, hkeeps, hbound⟩, ?_⟩
  unfold install
  simp only [EStateM.run_bind]
  rw [Graph.run_forM_addNode hdefault, Graph.foldl_enterNew_eq hnodup hfresh]
  simp only [hrun, Nat.zero_add, EStateM.run_pure]
  rfl

/-- The nodes that are made at a match that fits can be added, and the created edges after them. -/
lemma exists_adds (hrule : r.graph.WellFormed) (hhost : host.WellFormed)
    (hfits : host.Fits r.graph d found)
    (hspec : Instantiates host r.graph.creationNodes found nodes bound)
    (hids : nodes.map (·.id) = ids.draws nodes.length) :
    nodes.length = (r.newTemplates d).length ∧
      ∃ edges, r.Adds d host found nodes edges bound ∧
        (r.install nodes bound d).run host =
          .ok ⟨nodes.length, edges.length⟩ (host.extend nodes edges) := by
  have hinstances := hspec.instances
  rw [filter_unbound hfits] at hinstances
  have hnodup : (nodes.map (·.id)).Nodup := by
    rw [hids]
    apply IdSupply.nodup_draws
    rw [← hinstances.length_eq, ← List.length_map (·.id)]
    exact NodeId.length_le_of_nodup (hrule.nodup.sublist
      ((List.filter_sublist.trans List.filter_sublist).map _))
  exact ⟨hinstances.length_eq.symm, run_install hrule hhost hfits hinstances hspec.fresh hnodup
    hspec.keeps hspec.bound⟩

/-- At a match that fits, a rule extends the host as it says. If one of the ids that it draws is in
use, the first such id is reported and the host stays as it was. -/
theorem fire_cases (hrule : r.graph.WellFormed) (hhost : host.WellFormed)
    (hfits : host.Fits r.graph d found) (ids : IdSupply) :
    (∃ id ids', r.fire found d host ids = (.error (.duplicateNode id), host, ids') ∧
        (ids.draws (r.newTemplates d).length).find? host.contains = some id) ∨
      ∃ nodes edges bound ids',
        r.fire found d host ids =
          (.ok ⟨nodes.length, edges.length⟩, host.extend nodes edges, ids') ∧
        r.Adds d host found nodes edges bound ∧
        nodes.map (·.id) = ids.draws (r.newTemplates d).length := by
  unfold fire
  rcases @instantiate_cases host _ (nodup_creationNodes hrule) found ids with
    ⟨id, ids', herror, hid⟩ | ⟨nodes, bound, ids', hok, hspec, hids⟩
  · rw [herror]
    rw [filter_unbound hfits] at hid
    exact Or.inl ⟨id, ids', rfl, hid⟩
  · obtain ⟨hlength, edges, hadds, hrun⟩ := exists_adds hrule hhost hfits hspec hids
    rw [hok]
    dsimp only
    rw [hrun]
    exact Or.inr ⟨nodes, edges, bound, ids', rfl, hadds, hlength ▸ hids⟩

/-- What a firing that succeeds has drawn and added, and which nodes the match binds then. -/
theorem of_fire_ok (hrule : r.graph.WellFormed) (hhost : host.WellFormed)
    (hfits : host.Fits r.graph d found) {f : Firing} {host' : Graph} {ids' : IdSupply}
    (h : r.fire found d host ids = (.ok f, host', ids')) :
    ∃ nodes edges bound, f = ⟨nodes.length, edges.length⟩ ∧ host' = host.extend nodes edges ∧
      ids' = ids.skip nodes.length ∧ nodes.map (·.id) = ids.draws nodes.length ∧
      r.Adds d host found nodes edges bound ∧
      ∀ k id, bound.get? k = some id ↔ found.get? k = some id ∨
        (k, id) ∈ ((r.newTemplates d).map (·.id)).zip (nodes.map (·.id)) := by
  unfold fire at h
  split at h
  · cases h
  next nodes bound ids₁ hinst =>
    have htemplates := nodup_creationNodes hrule
    obtain ⟨hids, hbound⟩ := of_instantiate htemplates hinst
    rw [filter_unbound hfits] at hbound
    rcases @instantiate_cases host _ htemplates found ids with
      ⟨id, ids₂, herror, -⟩ | ⟨nodes', bound', ids₂, hok, hspec, hdraws⟩
    · cases hinst.symm.trans herror
    · cases hinst.symm.trans hok
      obtain ⟨-, edges, hadds, hrun⟩ := exists_adds hrule hhost hfits hspec hdraws
      rw [hrun] at h
      cases h
      exact ⟨nodes, edges, bound, rfl, rfl, hids, hdraws, hadds, hbound⟩

/-- A firing that fails has drawn the ids up to the one that is in use. -/
theorem of_fire_error (hrule : r.graph.WellFormed) (hhost : host.WellFormed)
    (hfits : host.Fits r.graph d found) {e : GraphError} {host' : Graph} {ids' : IdSupply}
    (h : r.fire found d host ids = (.error e, host', ids')) :
    ∃ j < (r.newTemplates d).length, ids' = ids.skip (j + 1) ∧
      host.contains (ids.skip j).next = true := by
  unfold fire at h
  have htemplates := nodup_creationNodes hrule
  split at h
  next e' ids₁ hinst =>
    cases h
    rw [← filter_unbound hfits]
    exact of_instantiate_error htemplates hinst
  next nodes bound ids₁ hinst =>
    rcases @instantiate_cases host _ htemplates found ids with
      ⟨id, ids₂, herror, -⟩ | ⟨nodes', bound', ids₂, hok, hspec, hdraws⟩
    · cases hinst.symm.trans herror
    · cases hinst.symm.trans hok
      obtain ⟨-, edges, -, hrun⟩ := exists_adds hrule hhost hfits hspec hdraws
      rw [hrun] at h
      cases h

namespace Adds

lemma exists_node (h : r.Adds d host found nodes edges bound) (hrule : r.graph.WellFormed)
    (hfits : host.Fits r.graph d found) {n : Node} (hn : n ∈ r.graph.nodes) :
    ∃ m ∈ (host.extend nodes edges).nodes, bound.get? n.id = some m.id ∧ m.kind = n.kind ∧
      m.domain = n.domain := by
  rw [Graph.nodes_extend]
  rcases @contains_or_mem_newTemplates r d n hn with hcontext | hnew
  · obtain ⟨id, hid⟩ := Option.isSome_iff_exists.mp ((hfits.contains_iff _).mpr hcontext)
    obtain ⟨m, hm, rfl, hkind, hdomain⟩ := hfits.exists_host_node hrule hn hid
    exact ⟨m, List.mem_append_left _ hm, h.keeps _ _ hid, hkind, hdomain⟩
  · obtain ⟨m, hm, hinst⟩ := exists_right_of_forall₂ h.instances hnew
    exact ⟨m, List.mem_append_right _ hm, hinst.bound, hinst.kind, hinst.domain⟩

lemma wellFormed (h : r.Adds d host found nodes edges bound) (hhost : host.WellFormed) :
    (host.extend nodes edges).WellFormed := by
  have hdefault : ∀ n ∈ nodes, n.isDefault = true → n.domain = .correspondence := by
    intro n hn hd
    obtain ⟨t, -, hinst⟩ := exists_left_of_forall₂ h.instances hn
    exact hinst.correspondence hd
  exact Graph.WellFormed.foldl_join id edges (hhost.foldl_enter h.nodup h.fresh hdefault)

lemma edges_extend (h : r.Adds d host found nodes edges bound) :
    (host.extend nodes edges).edges = host.edges ++ edges :=
  Graph.edges_extend h.ends

lemma domainOf?_eq (h : r.Adds d host found nodes edges bound) (hrule : r.graph.WellFormed)
    (hhost : host.WellFormed) (hfits : host.Fits r.graph d found) {k id : NodeId}
    (hk : k ∈ r.graph.nodes.map (·.id)) (hid : bound.get? k = some id) :
    (host.extend nodes edges).domainOf? id = r.graph.domainOf? k := by
  obtain ⟨n, hn, rfl⟩ := List.mem_map.mp hk
  obtain ⟨m, hm, hget, -, hdomain⟩ := h.exists_node hrule hfits hn
  obtain rfl := Option.some.inj (hid.symm.trans hget)
  rw [(h.wellFormed hhost).domainOf?_of_mem hm, hrule.domainOf?_of_mem hn, hdomain]

end Adds

end Rule

end TripleGrammar
