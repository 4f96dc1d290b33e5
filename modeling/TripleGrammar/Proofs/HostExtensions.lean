import TripleGrammar.Proofs.BacktrackingSearch
import TripleGrammar.Proofs.Firing
import TripleGrammar.Proofs.ReachableGraphs

/-!
# What a derivation leaves alone

A derivation only ever adds to the host. What it adds lies outside the domain that it reads, so the
part of the host inside that domain stays as it was, up to any point of the run and also if the
derivation fails. Hosts and the graphs of rules are taken to be well formed, as all graphs are that
can arise.
-/

namespace TripleGrammar

namespace Graph

variable {g g' g'' : Graph} {d : Domain} {id : NodeId} {e : Edge}

/-- `g'` is `g` with further nodes and edges, which have no action. None of the nodes is in `d`, and
none of the edges lies inside `d`. -/
structure Extends (d : Domain) (g g' : Graph) : Prop where
  name : g'.name = g.name
  nodes : ∃ new, g'.nodes = g.nodes ++ new ∧ ∀ n ∈ new, n.action = none ∧ n.domain ≠ d
  edges : ∃ new, g'.edges = g.edges ++ new ∧
    ∀ e ∈ new, e.action = none ∧ g'.edgeInside d e = false

namespace Extends

lemma refl (d : Domain) (g : Graph) : g.Extends d g :=
  ⟨rfl, ⟨[], by simp⟩, ⟨[], by simp⟩⟩

lemma mem_nodes (h : g.Extends d g') {n : Node} (hn : n ∈ g.nodes) : n ∈ g'.nodes := by
  obtain ⟨new, hnew, -⟩ := h.nodes
  rw [hnew]
  exact List.mem_append_left _ hn

lemma mem_edges (h : g.Extends d g') (he : e ∈ g.edges) : e ∈ g'.edges := by
  obtain ⟨new, hnew, -⟩ := h.edges
  rw [hnew]
  exact List.mem_append_left _ he

lemma find?_eq (h : g.Extends d g') (hg : g.WellFormed) (hg' : g'.WellFormed)
    (hid : g.contains id = true) : g'.find? id = g.find? id := by
  obtain ⟨n, hn, rfl, hfind⟩ := hg.exists_find? hid
  rw [hfind, hg'.find?_of_mem (h.mem_nodes hn)]

lemma domainOf?_eq (h : g.Extends d g') (hg : g.WellFormed) (hg' : g'.WellFormed)
    (hid : g.contains id = true) : g'.domainOf? id = g.domainOf? id := by
  unfold domainOf?
  rw [h.find?_eq hg hg' hid]

lemma edgeInside_eq (h : g.Extends d g') (hg : g.WellFormed) (hg' : g'.WellFormed)
    (he : e ∈ g.edges) : g'.edgeInside d e = g.edgeInside d e := by
  unfold edgeInside
  rw [h.domainOf?_eq hg hg' (hg.contains_tail he), h.domainOf?_eq hg hg' (hg.contains_head he)]

lemma trans (h : g.Extends d g') (h' : g'.Extends d g'') (hg' : g'.WellFormed)
    (hg'' : g''.WellFormed) : g.Extends d g'' := by
  obtain ⟨ns, hns, hnsd⟩ := h.nodes
  obtain ⟨ns', hns', hnsd'⟩ := h'.nodes
  obtain ⟨es, hes, hesd⟩ := h.edges
  obtain ⟨es', hes', hesd'⟩ := h'.edges
  refine ⟨h'.name.trans h.name, ⟨ns ++ ns', ?_, ?_⟩, ⟨es ++ es', ?_, ?_⟩⟩
  · rw [hns', hns, List.append_assoc]
  · intro n hn
    rcases List.mem_append.mp hn with hn | hn
    · exact hnsd n hn
    · exact hnsd' n hn
  · rw [hes', hes, List.append_assoc]
  · intro e he
    rcases List.mem_append.mp he with he | he
    · have hmem : e ∈ g'.edges := by
        rw [hes]
        exact List.mem_append_right _ he
      rw [h'.edgeInside_eq hg' hg'' hmem]
      exact hesd e he
    · exact hesd' e he

lemma nodesIn_eq (h : g.Extends d g') : g'.nodesIn d = g.nodesIn d := by
  obtain ⟨new, hnew, hd⟩ := h.nodes
  have hnone : new.filter (·.domain == d) = [] := by
    rw [List.filter_eq_nil_iff]
    intro n hn
    simpa using (hd n hn).2
  unfold nodesIn
  rw [hnew, List.filter_append, hnone, List.append_nil]

lemma inside_edges_eq (h : g.Extends d g') (hg : g.WellFormed) (hg' : g'.WellFormed) :
    g'.edges.filter (g'.edgeInside d) = g.edges.filter (g.edgeInside d) := by
  obtain ⟨new, hnew, hd⟩ := h.edges
  have hnone : new.filter (g'.edgeInside d) = [] := by
    rw [List.filter_eq_nil_iff]
    intro e he
    rw [(hd e he).2]
    exact Bool.false_ne_true
  have hold : g.edges.filter (g'.edgeInside d) = g.edges.filter (g.edgeInside d) := by
    apply List.filter_congr
    intro e he
    exact h.edgeInside_eq hg hg' he
  rw [hnew, List.filter_append, hnone, hold, List.append_nil]

theorem project_eq (h : g.Extends d g') (hg : g.WellFormed) (hg' : g'.WellFormed) :
    g'.project d = g.project d := by
  have hjoin : ∀ k : Graph, ∀ e ∈ g.edges.filter (g.edgeInside d),
      g'.joinFrom k e = g.joinFrom k e := by
    intro k e he
    have hmem := (List.mem_filter.mp he).1
    unfold joinFrom enterFrom
    rw [h.find?_eq hg hg' (hg.contains_tail hmem), h.find?_eq hg hg' (hg.contains_head hmem)]
  have hpart : g'.partOf (g.edges.filter (g.edgeInside d)) g.name =
      g.partOf (g.edges.filter (g.edgeInside d)) g.name :=
    List.foldl_ext _ _ _ hjoin
  unfold project
  rw [h.nodesIn_eq, h.inside_edges_eq hg hg', h.name, hpart]

end Extends

end Graph

/-! ### What a firing adds lies outside the domain -/

namespace Rule

variable {r : Rule} {d : Domain} {host : Graph} {found bound : Match} {nodes : List Node}
  {edges : List Edge}

/-- The context has every node of the domain, so a firing adds none. -/
lemma domain_ne_of_mem_newTemplates {t : Node} (ht : t ∈ r.newTemplates d) : t.domain ≠ d := by
  intro heq
  obtain ⟨hcreation, hout⟩ := List.mem_filter.mp ht
  have hcontext := Graph.context_contains (List.mem_filter.mp hcreation).1 (Or.inl heq)
  rw [hcontext] at hout
  cases hout

lemma Adds.edgeInside_eq_false (h : r.Adds d host found nodes edges bound)
    (hrule : r.graph.WellFormed) (hhost : host.WellFormed) (hfits : host.Fits r.graph d found)
    {e' : Edge} (he' : e' ∈ edges) : (host.extend nodes edges).edgeInside d e' = false := by
  obtain ⟨e, he, hplace⟩ := exists_left_of_forall₂ h.placed he'
  obtain ⟨hmem, -, hout⟩ := mem_of_mem_newEdges he
  obtain ⟨ht, hh, -, -⟩ := placeEdge_eq_ok_iff.mp hplace
  have hsame : (host.extend nodes edges).edgeInside d e' = r.graph.edgeInside d e := by
    unfold Graph.edgeInside
    rw [h.domainOf?_eq hrule hhost hfits (hrule.tail_mem e hmem) ht,
      h.domainOf?_eq hrule hhost hfits (hrule.head_mem e hmem) hh]
  exact hsame.trans hout

lemma Adds.extends (h : r.Adds d host found nodes edges bound) (hrule : r.graph.WellFormed)
    (hhost : host.WellFormed) (hfits : host.Fits r.graph d found) :
    host.Extends d (host.extend nodes edges) := by
  refine ⟨Graph.name_extend, ⟨nodes, Graph.nodes_extend, ?_⟩, ⟨edges, h.edges_extend, ?_⟩⟩
  · intro n hn
    obtain ⟨t, ht, hinst⟩ := exists_left_of_forall₂ h.instances hn
    refine ⟨hinst.action, ?_⟩
    rw [hinst.domain]
    exact domain_ne_of_mem_newTemplates ht
  · intro e he
    obtain ⟨e₀, -, hplace⟩ := exists_left_of_forall₂ h.placed he
    exact ⟨(placeEdge_eq_ok_iff.mp hplace).2.2.2, h.edgeInside_eq_false hrule hhost hfits he⟩

end Rule

/-! ### Runs -/

namespace Grammar

variable {G : Grammar} {d : Domain} {p q : Progress} {r : Rule}

lemma fits_nextMatch (hG : ∀ k, (G.strategy k).Sound) (hrule : r.graph.WellFormed)
    (hp : p.host.WellFormed) (hfound : (G.nextMatch d r p).isEmpty = false) :
    p.host.Fits r.graph d (G.nextMatch d r p) ∧
      Graph.repeatsLinks (p.host.links d) r.graph.createdLinkKinds
        (p.host.boundIn d (G.nextMatch d r p)) = false :=
  Graph.fits_of_searchMatch (hG p.searches) hp hrule hfound

lemma Tries.cases {result : Except GraphError Firing} (h : G.Tries d r p result q)
    (hG : ∀ k, (G.strategy k).Sound) (hrule : r.graph.WellFormed) (hp : p.host.WellFormed) :
    p.host.Fits r.graph d (G.nextMatch d r p) ∧
      Graph.repeatsLinks (p.host.links d) r.graph.createdLinkKinds
        (p.host.boundIn d (G.nextMatch d r p)) = false ∧
      ((∃ id, result = .error (.duplicateNode id) ∧ q.host = p.host) ∨
        ∃ nodes edges bound, result = .ok ⟨nodes.length, edges.length⟩ ∧
          q.host = p.host.extend nodes edges ∧
          r.Adds d p.host (G.nextMatch d r p) nodes edges bound) := by
  obtain ⟨hfits, hnew⟩ := fits_nextMatch hG hrule hp h.found
  refine ⟨hfits, hnew, ?_⟩
  have hfire := h.fire
  rcases Rule.fire_cases hrule hp hfits p.ids with
    ⟨id, ids', herror, -⟩ | ⟨nodes, edges, bound, ids', hok, hadds, -⟩
  · rw [herror] at hfire
    obtain ⟨hresult, hhost⟩ := Prod.mk.inj hfire
    exact Or.inl ⟨id, hresult.symm, (Prod.mk.inj hhost).1.symm⟩
  · rw [hok] at hfire
    obtain ⟨hresult, hhost⟩ := Prod.mk.inj hfire
    exact Or.inr ⟨nodes, edges, bound, hresult.symm, (Prod.mk.inj hhost).1.symm, hadds⟩

lemma host_eq_of_isEmpty (hG : ∀ k, (G.strategy k).Sound) (hrule : r.graph.WellFormed)
    (hp : p.host.WellFormed) {f : Firing} (hf : f.isEmpty = true)
    (h : G.Tries d r p (.ok f) q) : q.host = p.host := by
  obtain ⟨-, -, hcases⟩ := h.cases hG hrule hp
  rcases hcases with ⟨id, herror, -⟩ | ⟨nodes, edges, bound, hok, hhost, -⟩
  · cases herror
  · cases hok
    unfold Firing.isEmpty at hf
    simp only [Bool.and_eq_true, beq_iff_eq] at hf
    obtain rfl := List.length_eq_zero_iff.mp hf.1
    obtain rfl := List.length_eq_zero_iff.mp hf.2
    exact hhost

lemma Tries.extends {result : Except GraphError Firing} (h : G.Tries d r p result q)
    (hG : ∀ k, (G.strategy k).Sound) (hrule : r.graph.WellFormed) (hp : p.host.WellFormed) :
    p.host.Extends d q.host := by
  obtain ⟨hfits, -, hcases⟩ := h.cases hG hrule hp
  rcases hcases with ⟨id, -, hhost⟩ | ⟨nodes, edges, bound, -, hhost, hadds⟩
  · rw [hhost]
    exact Graph.Extends.refl d p.host
  · rw [hhost]
    exact hadds.extends hrule hp hfits

lemma firings_extend (hG : ∀ k, (G.strategy k).Sound)
    (hrules : ∀ r ∈ G.rules, r.graph.WellFormed) (host : Graph) :
    G.FiringsKeep d fun g => g.WellFormed ∧ host.Extends d g := by
  intro r hr p q result ⟨hp, hext⟩ htries
  have hq := G.wellFormed_firings d r hr p q result hp htries
  exact ⟨hq, hext.trans (htries.extends hG (hrules r hr) hp) hp hq⟩

/-- Up to any firing of a run, and at the end of a derivation however it ends, the host is an
extension of what it was, and its part inside the domain that is read is the same. -/
theorem derivations_extend_host (G : Grammar) (reads writes : Domain) (host : Graph)
    (ids : IdSupply) (hG : ∀ k, (G.strategy k).Sound)
    (hrules : ∀ r ∈ G.rules, r.graph.WellFormed) (hhost : host.WellFormed) :
    (∀ sites q, G.Leads reads { host, ids } sites q →
      host.Extends reads q.host ∧ q.host.project reads = host.project reads) ∧
    ∀ fuel o, G.derive reads writes fuel host ids = some o →
      host.Extends reads o.host ∧ o.host.project reads = host.project reads := by
  have hkeep := @firings_extend G reads hG hrules host
  have hstart : host.WellFormed ∧ host.Extends reads host :=
    ⟨hhost, Graph.Extends.refl reads host⟩
  refine ⟨fun sites q hq => ?_, fun fuel o ho => ?_⟩
  · obtain ⟨hwf, hext⟩ := hq.keeps hkeep hstart
    exact ⟨hext, hext.project_eq hhost hwf⟩
  · obtain ⟨ending, q, hrun, heq, -⟩ := exists_run_of_derive ho
    obtain ⟨hwf, hext⟩ := run_keeps hkeep hstart hrun
    rw [heq]
    exact ⟨hext, hext.project_eq hhost hwf⟩

/-- Two classes that are joined by an edge are each given a table. -/
theorem derivations_extend_host_tables :
    let cls : Node := { id := ⟨0⟩, kind := "Class", domain := .source, action := some .create }
    let table : Node := { id := ⟨1⟩, kind := "Table", domain := .target, action := some .create }
    let link : Node :=
      { id := ⟨2⟩, kind := "Link", domain := .correspondence, action := some .create }
    let g := (Graph.assemble [cls, table, link]
      [{ tail := ⟨2⟩, head := ⟨0⟩, action := some .create },
       { tail := ⟨2⟩, head := ⟨1⟩, action := some .create }]).after ∅
    let r : Rule := { name := "Axiom", graph := g, tagged := by decide +kernel }
    let G : Grammar := { rules := [r] }
    let host := (Graph.assemble
      [{ id := ⟨5⟩, kind := "Class", domain := .source },
       { id := ⟨6⟩, kind := "Class", domain := .source }] [{ tail := ⟨5⟩, head := ⟨6⟩ }]).after ∅
    (∀ k, (G.strategy k).Sound) ∧ (∀ r ∈ G.rules, r.graph.WellFormed) ∧ host.WellFormed ∧
      ∃ o, G.derive .source .target 3 host { next := ⟨7⟩ } = some o ∧
        (o.host.nodes.length, o.host.edges.length) = (6, 5) ∧
        host.Extends .source o.host ∧ o.host.project .source = host.project .source := by
  intro cls table link g r G host
  have hG : ∀ k, (G.strategy k).Sound := fun _ => Strategy.backtracking_sound
  have hg : g.WellFormed := Graph.assemble_keeps_wellFormed _ _ ∅ (Graph.wellFormed_bare none)
  have hrules : ∀ r ∈ G.rules, r.graph.WellFormed := by
    intro r' hr'
    obtain rfl := List.mem_singleton.mp hr'
    exact hg
  have hhost : host.WellFormed :=
    Graph.assemble_keeps_wellFormed _ _ ∅ (Graph.wellFormed_bare none)
  have hsize : (G.derive .source .target 3 host { next := ⟨7⟩ }).map
      (fun o => (o.host.nodes.length, o.host.edges.length)) = some (6, 5) := by
    decide +kernel
  obtain ⟨o, ho, hlength⟩ := Option.map_eq_some_iff.mp hsize
  obtain ⟨-, hderive⟩ :=
    derivations_extend_host G .source .target host { next := ⟨7⟩ } hG hrules hhost
  obtain ⟨hext, hproject⟩ := hderive 3 o ho
  exact ⟨hG, hrules, hhost, o, ho, hlength, hext, hproject⟩

end Grammar

end TripleGrammar
