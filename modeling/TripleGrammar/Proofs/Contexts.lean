import TripleGrammar.Proofs.ReachableGraphs
import TripleGrammar.Proofs.SightOrders
import TripleGrammar.Rule.Basic

/-!
# The context of a rule

What a rule is matched by and what it adds are taken from its graph by different tests. The context
has the preserved elements and all of one domain. So in a graph in which every element has an action
nothing is forgotten, and an edge that is created outside the domain is not matched as well.
-/

namespace TripleGrammar.Graph

variable {g : Graph} {n : Node} {e : Edge} {d : Domain}

/-! ### The nodes of the context -/

/-- The node has to be there before the rule fires, whichever edges it has. -/
def Required (d : Domain) (n : Node) : Prop := n.domain = d ∨ n.action = some .preserve

lemma required_iff : (n.domain == d || n.hasAction .preserve) = true ↔ Required d n := by
  simp [Required, Node.hasAction]

lemma mem_nodes_context_iff (hg : g.WellFormed) (d : Domain) : n ∈ (g.context d).nodes ↔
    n ∈ g.nodes ∧ ((∃ e ∈ (g.context d).edges, n.id = e.tail ∨ n.id = e.head) ∨ Required d n) := by
  rw [(isPart_context hg d).mem_nodes_iff hg, edges_context hg]
  refine and_congr_right fun hn => ?_
  unfold context
  rw [contains_foldl_enterNew, contains_partOf hg (hg.bounds (contextEdges_subset g d))]
  refine or_congr_right ⟨?_, fun hreq => ⟨n, List.mem_filter.mpr ⟨hn, required_iff.mpr hreq⟩, rfl⟩⟩
  rintro ⟨m, hm, hid⟩
  obtain ⟨hmg, hreq⟩ := List.mem_filter.mp hm
  obtain rfl := hg.eq_of_id_eq hmg hn hid
  exact required_iff.mp hreq

/-! ### The context of the context -/

/-- All edges of the context are context edges. -/
lemma contextEdges_context (hg : g.WellFormed) (d : Domain) :
    (g.context d).contextEdges d = (g.context d).edges := by
  have hinside : ((g.context d).edges.filter fun e =>
        (g.context d).edgeInside d e && !e.hasAction .preserve) =
      (g.context d).edges.filter fun e => g.edgeInside d e && !e.hasAction .preserve :=
    List.filter_congr fun e he => by rw [(isPart_context hg d).edgeInside_eq hg he]
  rw [contextEdges_eq, hinside, edges_context hg, contextEdges_eq]
  set old := g.edges.filter (·.hasAction .preserve)
  set new := (g.edges.filter fun e => g.edgeInside d e && !e.hasAction .preserve).eraseDups
  have hold : ∀ e ∈ old, e.hasAction .preserve = true := fun e he => (List.mem_filter.mp he).2
  have hnew : ∀ e ∈ new, (g.edgeInside d e && !e.hasAction .preserve) = true :=
    fun e he => (List.mem_filter.mp (List.mem_eraseDups.mp he)).2
  have hpreserved : (old ++ new).filter (·.hasAction .preserve) = old := by
    rw [List.filter_append, List.filter_eq_self.mpr hold, List.filter_eq_nil_iff.mpr,
      List.append_nil]
    intro e he
    simpa using (Bool.and_eq_true_iff.mp (hnew e he)).2
  have hothers : (old ++ new).filter (fun e => g.edgeInside d e && !e.hasAction .preserve) =
      new := by
    rw [List.filter_append, List.filter_eq_self.mpr hnew, List.filter_eq_nil_iff.mpr,
      List.nil_append]
    intro e he
    simp [hold e he]
  rw [hpreserved, hothers, eraseDups_eq_self (nodup_eraseDups _)]

lemma context_context (hg : g.WellFormed) (d : Domain) : (g.context d).context d =
    { g.context d with name := (g.context d).name.map (· ++ "_context") } := by
  have hwf := (isPart_context hg d).wellFormed
  have horder : (g.context d).nodes.map (·.id) =
      enteredIds (g.context d).nodes (g.context d).edges :=
    enteredIds_gathered hg (hg.bounds (contextEdges_subset g d)) (List.filter_subset_self _)
  have hrequired : ∀ n ∈ (g.context d).nodes, n.id ∉ endpoints (g.context d).edges →
      (n.domain == d || n.hasAction .preserve) = true := by
    intro n hn huntouched
    obtain ⟨-, ⟨e, he, hend⟩ | hreq⟩ := (mem_nodes_context_iff hg d).mp hn
    · refine absurd (List.mem_flatMap.mpr ⟨e, he, ?_⟩) huntouched
      simpa using hend
    · exact required_iff.mpr hreq
  conv_lhs => rw [context, contextEdges_context hg]
  exact gathered_again hwf horder hrequired

/-! ### What is in the context and what is created -/

lemma action_eq_of_tagged {α : Type} {action : α → Option Action} {a : α}
    (htagged : (action a).isSome) : action a = some .preserve ∨ action a = some .create := by
  obtain ⟨x, hx⟩ := Option.isSome_iff_exists.mp htagged
  cases x with
  | preserve => exact Or.inl hx
  | create => exact Or.inr hx

lemma mem_edges_context_iff (hg : g.WellFormed) (he : e ∈ g.edges) (htagged : e.action.isSome) :
    e ∈ (g.context d).edges ↔ ¬(e.action = some .create ∧ g.edgeInside d e = false) := by
  rw [edges_context hg, mem_contextEdges_iff, and_iff_right he]
  unfold Edge.hasAction
  rcases action_eq_of_tagged htagged with haction | haction
  · simp [haction]
  · simp [haction]

/-- The context has the preserved edges, as often as they are there, and after them each further
edge inside the domain where it comes first. Its nodes are the ends of these edges and all nodes that
are in the domain or preserved. Its own context has the same elements in the same order. Where every
element has an action, each node is in the context or created, and the edges that are not in it are
those that are created outside the domain. -/
theorem context_exact (hg : g.WellFormed) (d : Domain) :
    (g.context d).edges = g.edges.filter (·.hasAction .preserve) ++
        (g.edges.filter fun e => g.edgeInside d e && !e.hasAction .preserve).eraseDups ∧
      ((g.context d).nodes.map (·.id)).Nodup ∧
      (∀ n, n ∈ (g.context d).nodes ↔ n ∈ g.nodes ∧
        ((∃ e ∈ (g.context d).edges, n.id = e.tail ∨ n.id = e.head) ∨
          n.domain = d ∨ n.action = some .preserve)) ∧
      (g.context d).context d =
        { g.context d with name := (g.context d).name.map (· ++ "_context") } ∧
      (g.Tagged →
        (∀ n ∈ g.nodes, n ∈ (g.context d).nodes ∨ n.action = some .create) ∧
        ∀ e ∈ g.edges, e ∈ (g.context d).edges ↔
          ¬(e.action = some .create ∧ g.edgeInside d e = false)) := by
  refine ⟨?_, ?_, fun n => mem_nodes_context_iff hg d, context_context hg d,
    fun htagged => ⟨?_, ?_⟩⟩
  · rw [edges_context hg, contextEdges_eq]
  · exact (isPart_context hg d).wellFormed.nodup
  · intro n hn
    refine (action_eq_of_tagged (htagged.1 n hn)).imp_left fun hpreserved => ?_
    exact (mem_nodes_context_iff hg d).mpr ⟨hn, Or.inr (Or.inr hpreserved)⟩
  · exact fun e he => mem_edges_context_iff hg he (htagged.2 e he)

/-- A rule that has a preserved loop twice and creates an edge inside the source domain twice. The
edge to the created table is left out with the table, and the class comes first because of its
loop. -/
theorem context_exact_repeated :
    let c : Node := { id := ⟨0⟩, kind := "Class", domain := .source, action := some .preserve }
    let s : Node := { id := ⟨1⟩, kind := "Attribute", domain := .source, action := some .create }
    let t : Node := { id := ⟨2⟩, kind := "Table", domain := .target, action := some .create }
    let l : Node := { id := ⟨3⟩, kind := "Link", domain := .correspondence, action := some .preserve }
    let loop : Edge := { tail := ⟨0⟩, head := ⟨0⟩, action := some .preserve }
    let owner : Edge := { tail := ⟨1⟩, head := ⟨0⟩, action := some .create }
    let link : Edge := { tail := ⟨3⟩, head := ⟨2⟩, action := some .create }
    let g := (assemble [t, l, s, c] [link, owner, loop, owner, loop]).after ∅
    g.WellFormed ∧ g.Tagged ∧ (g.context .source).edges = [loop, loop, owner] ∧
      (g.context .source).nodes = [c, s, l] ∧ t ∉ (g.context .source).nodes ∧
      link ∉ (g.context .source).edges ∧
      ((g.context .source).context .source).nodes = [c, s, l] ∧
      ((g.context .source).context .source).edges = [loop, loop, owner] := by
  intro c s t l loop owner link g
  have hg : g.WellFormed := assemble_keeps_wellFormed _ _ ∅ (wellFormed_bare none)
  have htagged : g.Tagged := by decide +kernel
  obtain ⟨hedges, -, -, hagain, hall⟩ := context_exact hg .source
  have hlist : (g.context .source).edges = [loop, loop, owner] := hedges.trans (by decide +kernel)
  have hnodes : (g.context .source).nodes = [c, s, l] := by decide +kernel
  have hlink : link ∈ g.edges := by decide +kernel
  refine ⟨hg, htagged, hlist, hnodes, by decide +kernel, ?_, ?_, ?_⟩
  · exact fun hmem => ((hall htagged).2 link hlink).mp hmem ⟨rfl, by decide +kernel⟩
  · rw [hagain, hnodes]
  · rw [hagain, hlist]

end TripleGrammar.Graph
