import TripleGrammar.Proofs.CanonicalTexts
import TripleGrammar.Proofs.ReachableGraphs
import TripleGrammar.Proofs.SightOrders
import TripleGrammar.Proofs.Signatures

/-!
# Graphs are read back

The text of a graph holds its name, nodes and edges, and the reader assembles a graph from them. So
the nodes come back in the order in which the edges come upon them, and after that order is reached
the graph comes back as it is.
-/

namespace TripleGrammar.Graph

variable {g g' : Graph}

/-- The nodes in the order in which the edges come upon them, tail before head, and after them those
that no edge touches. -/
def nodesBySight (g : Graph) : List Node :=
  recordsOf g.nodes (endpoints g.edges).eraseDups ++
    g.nodes.filter fun n => !(endpoints g.edges).contains n.id

/-- What is assembled from the parts of a graph has its nodes in the order of the edges. -/
lemma recordsOf_enteredIds (hnodup : (g.nodes.map (·.id)).Nodup) :
    recordsOf g.nodes (enteredIds g.nodes g.edges) = g.nodesBySight := by
  have hothers : ((g.nodes.map (·.id)).removeAll (endpoints g.edges)).eraseDups =
      (g.nodes.filter fun n => !(endpoints g.edges).contains n.id).map (·.id) := by
    have hfilter : (g.nodes.map (·.id)).removeAll (endpoints g.edges) =
        (g.nodes.filter fun n => !(endpoints g.edges).contains n.id).map (·.id) :=
      List.filter_map
    rw [hfilter]
    exact eraseDups_eq_self ((List.filter_sublist.map _).nodup hnodup)
  have hrest := recordsOf_map_id hnodup
    (List.filter_sublist (l := g.nodes) (p := fun n => !(endpoints g.edges).contains n.id)).subset
  have happend (l l' : List NodeId) :
      recordsOf g.nodes (l ++ l') = recordsOf g.nodes l ++ recordsOf g.nodes l' :=
    List.filterMap_append
  unfold enteredIds nodesBySight
  rw [hothers, happend, hrest]

/-- The order of the nodes is reached in one step. -/
lemma nodesBySight_eq (hg : g.WellFormed) (hperm : g'.nodes.Perm g.nodes)
    (hnodes : g'.nodes = g.nodesBySight) (hedges : g'.edges = g.edges) :
    g'.nodesBySight = g'.nodes := by
  have hnodup : (g'.nodes.map (·.id)).Nodup := (hperm.map _).nodup_iff.mpr hg.nodup
  have hends : ∀ id ∈ endpoints g.edges, id ∈ g.nodes.map (·.id) :=
    forall_mem_endpoints_iff.mpr fun e he => ⟨hg.tail_mem e he, hg.head_mem e he⟩
  have hids : ∀ id ∈ enteredIds g.nodes g.edges, id ∈ g.nodes.map (·.id) := fun id hid =>
    (List.mem_append.mp (mem_enteredIds_iff.mp hid)).elim (hends id) fun hmem => hmem
  -- the ids in the order of the edges stay as they are when they are ordered by the same edges
  have horder : enteredIds g'.nodes g'.edges = g'.nodes.map (·.id) := by
    rw [hnodes, ← recordsOf_enteredIds hg.nodup, hedges, enteredIds_eq, ids_recordsOf hids,
      enteredIds_eq, eraseDups_append_self]
  rw [← recordsOf_enteredIds hnodup, horder, recordsOf_map_id hnodup (List.Subset.refl _)]

/-! ### The text of a graph -/

lemma written (g : Graph) : (toJson g).Written := by
  refine Json.written_ofMembers (List.forall_mem_append.mpr
    ⟨written_optionalField Json.written_ofText, List.forall_mem_cons.mpr ⟨?_, ?_⟩⟩)
  · exact Json.written_array fun n _ => n.lossless.written
  · exact List.forall_mem_singleton.mpr (Json.written_array fun e _ => e.lossless.written)

/-- The reader finds the name, the nodes and the edges. -/
lemma ofJson?_toJson (g : Graph) : ofJson? (toJson g) =
    some ({ name := g.name, records := g.nodes, edges := g.edges } : Draft) := by
  obtain ⟨name, nodes, index, adjacency, edges⟩ := g
  have hnodes : Json.list? ofJson? (.array (nodes.map toJson)) = some nodes :=
    Json.list?_array fun n _ => n.lossless.ofJson?_toJson
  have hedges : Json.list? ofJson? (.array (edges.map toJson)) = some edges :=
    Json.list?_array fun e _ => e.lossless.ofJson?_toJson
  unfold instReadableDraft instCanonicalGraph optionalField
  dsimp only
  rw [Json.fields?_ofMembers (by cases name <;> simp) (by cases name <;> simp)]
  cases name <;>
    simp [Json.required?, Json.optional?, List.lookup_cons, nullable?_text, hnodes, hedges]

lemma readGraph_canonicalText (h : ofParts g.nodes g.edges = .ok g') :
    readGraph (canonicalText g) = .ok { g' with name := g.name } := by
  have hbuild : Draft.build { name := g.name, records := g.nodes, edges := g.edges } =
      .ok { g' with name := g.name } := by
    unfold Draft.build
    rw [h]
    rfl
  unfold readGraph canonicalText
  rw [g.written.read_compact]
  dsimp only
  rw [ofJson?_toJson]
  dsimp only
  rw [hbuild]
  rfl

lemma exists_readGraph (hg : g.WellFormed) :
    ∃ g', readGraph (canonicalText g) = .ok g' ∧ g'.name = g.name ∧ g'.edges = g.edges ∧
      g'.nodes = g.nodesBySight ∧ g'.nodes.Perm g.nodes := by
  obtain ⟨g', hparts, hperm, hedges⟩ := exists_ofParts hg.nodup hg.default_mem
    fun e he => ⟨hg.tail_mem e he, hg.head_mem e he⟩
  refine ⟨_, readGraph_canonicalText hparts, rfl, hedges, ?_, hperm⟩
  exact (nodes_ofParts hparts).trans (recordsOf_enteredIds hg.nodup)

/-- Graphs with the same edges and, up to order, the same nodes are isomorphic. -/
lemma renames_of_nodes_perm (hg : g.WellFormed) (hnodes : g'.nodes.Perm g.nodes)
    (hedges : g'.edges = g.edges) : g.Renames g' fun id => id :=
  renames_of_perm hg (hnodes.map fun n => (n.id, n.kind, n.domain, n.isDefault))
    (.of_eq (congrArg (List.map fun e => (e.tail, e.head, e.kind)) hedges))

/-- A graph is read back with its name, its nodes and its edges. The nodes come in the order in
which the edges come upon them, and so the graph that is read is the one that was written exactly if
that had its nodes in this order. It is isomorphic to that graph, has the same hash, and is read
back from its own text as it is. -/
theorem readGraph_canonicalText_bySight (hg : g.WellFormed) :
    ∃ g', readGraph (canonicalText g) = .ok g' ∧ g'.name = g.name ∧ g'.edges = g.edges ∧
      g'.nodes = g.nodesBySight ∧ g'.nodes.Perm g.nodes ∧ g'.isIsomorphicTo g = true ∧
      g'.structureHash = g.structureHash ∧ (g' = g ↔ g.nodes = g.nodesBySight) ∧
      readGraph (canonicalText g') = .ok g' := by
  obtain ⟨g', hread, hname, hedges, hnodes, hperm⟩ := exists_readGraph hg
  have hg' : g'.WellFormed := wellFormed_of_readGraph hread
  have hr := renames_of_nodes_perm hg hperm hedges
  obtain ⟨g'', hread', hname', hedges', hnodes', -⟩ := exists_readGraph hg'
  have hsame : g'' = g' := by
    refine (wellFormed_of_readGraph hread').ext hg' hname' ?_ hedges'
    exact hnodes'.trans (nodesBySight_eq hg hperm hnodes hedges)
  refine ⟨g', hread, hname, hedges, hnodes, hperm, ?_, ?_, ⟨?_, ?_⟩, ?_⟩
  · exact (isIsomorphicTo_iff hg' hg).mpr (hr.symm hg hg')
  · exact congrArg canonicalHash (hr.signature_eq hg hg').symm
  · rintro rfl
    exact hnodes
  · intro horder
    exact hg'.ext hg hname (hnodes.trans horder.symm) hedges
  · rw [hread', hsame]

/-- A host that has grown node by node, with the empty text as its name. The edge comes upon the
link first, so the table moves to the end. -/
theorem readGraph_canonicalText_bySight_grown :
    let t : Node := { id := ⟨5⟩, kind := "Table \"T\"\n", domain := .target }
    let c : Node := { id := ⟨3⟩, kind := "Class\\", domain := .source }
    let l : Node := { id := ⟨1⟩, kind := "", domain := .correspondence, isDefault := true }
    let e : Edge := { tail := ⟨1⟩, head := ⟨3⟩, kind := some "" }
    let g := ((addEdge e).after
      ((addNode l).after ((addNode c).after ((addNode t).after ∅)))).named ""
    g.WellFormed ∧ ∃ g', readGraph (canonicalText g) = .ok g' ∧ g'.name = some "" ∧
      g'.nodes = [l, c, t] ∧ g'.edges = [e] ∧ g' ≠ g ∧ g'.isIsomorphicTo g = true ∧
      readGraph (canonicalText g') = .ok g' := by
  intro t c l e g
  have hreach : g.Reachable :=
    ((((Reachable.empty.nodeAdded t).nodeAdded c).nodeAdded l).edgeAdded e).named ""
  have hg : g.WellFormed := hreach.wellFormed
  obtain ⟨g', hread, hname, hedges, hnodes, -, hiso, -, hsame, hagain⟩ :=
    readGraph_canonicalText_bySight hg
  have hsight : g.nodesBySight = [l, c, t] := by decide +kernel
  have hmoved : g.nodes ≠ g.nodesBySight := by decide +kernel
  have hlink : g.edges = [e] := by decide +kernel
  exact ⟨hg, g', hread, hname, hnodes.trans hsight, hedges.trans hlink,
    fun heq => hmoved (hsame.mp heq), hiso, hagain⟩

end TripleGrammar.Graph
