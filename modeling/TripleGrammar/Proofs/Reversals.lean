import TripleGrammar.Proofs.ReachableGraphs
import TripleGrammar.Proofs.SightOrders

/-!
# Reversed graphs

The nodes from which edges run to a node are read off the edge list, and those to which edges run
off the matrix. Reversing a graph exchanges the two, though both the positions and the matrix of the
reversed graph are built anew. So a search that runs against the edges can run along those of the
reversed graph.
-/

namespace TripleGrammar.Graph

variable {g h : Graph} {id : NodeId} {i : Nat}

/-! ### The reversed graph -/

lemma reverse_reverse (hg : g.WellFormed) : g.reverse.reverse = g := by
  refine hg.reverse.reverse.ext hg ?_ ?_ ?_
  · rw [name_reverse, name_reverse]
  · rw [nodes_reverse, nodes_reverse]
  · rw [edges_reverse hg.reverse, edges_reverse hg, List.map_map]
    exact List.map_id _

lemma idAt?_reverse : g.reverse.idAt? i = g.idAt? i := by
  rw [idAt?, idAt?, nodes_reverse]

lemma indexOf?_reverse (hg : g.WellFormed) : g.reverse.indexOf? id = g.indexOf? id :=
  Option.ext fun i => by rw [hg.reverse.indexOf?_iff, hg.indexOf?_iff, idAt?_reverse]

lemma contains_reverse (hg : g.WellFormed) : g.reverse.contains id = g.contains id := by
  rw [Bool.eq_iff_iff, contains_iff_exists, contains_iff_exists, indexOf?_reverse hg]

lemma get_reverse (hg : g.WellFormed) (i j : Nat) :
    g.reverse.adjacency.get i j = g.adjacency.get j i := by
  rw [Bool.eq_iff_iff, hg.reverse.get_iff, hg.get_iff, edges_reverse hg]
  simp only [idAt?_reverse, List.mem_map, exists_exists_and_eq_and]
  exact exists_congr fun e => and_congr_right fun _ => and_comm

lemma adjacency_reverse (hg : g.WellFormed) : g.reverse.adjacency = g.adjacency.transpose := by
  refine BitMatrix.ext_get hg.reverse.cells_eq BitMatrix.wellFormed_transpose ?_ ?_ fun i j => ?_
  · rw [hg.reverse.rows_eq, BitMatrix.rows_transpose, hg.cols_eq, nodes_reverse]
  · rw [hg.reverse.cols_eq, BitMatrix.cols_transpose, hg.rows_eq, nodes_reverse]
  · rw [get_reverse hg, BitMatrix.get_transpose]

/-! ### The neighbours of a node -/

lemma mem_tailPositions_iff (hg : g.WellFormed) :
    i ∈ g.tailPositions id ↔ ∃ e ∈ g.edges, e.head = id ∧ g.idAt? i = some e.tail := by
  simp only [tailPositions, SortedMap.mem_distinct, List.mem_filterMap, List.mem_filter,
    hg.indexOf?_iff, beq_iff_eq, and_assoc]

/-- The scan of the edge list finds the positions that the reversed matrix has in its row, in the
same order. -/
lemma tailPositions_eq_rowOnes (hg : g.WellFormed) (hi : g.indexOf? id = some i) :
    g.tailPositions id = g.reverse.adjacency.rowOnes i := by
  have hscan : (g.tailPositions id).Pairwise (· < ·) :=
    (SortedMap.pairwise_distinct _).imp fun hlt => Nat.compare_eq_lt.mp hlt
  have hrow : (g.reverse.adjacency.rowOnes i).Pairwise (· < ·) :=
    List.pairwise_lt_range.filter _
  have hmem : ∀ j, j ∈ g.tailPositions id ↔ j ∈ g.reverse.adjacency.rowOnes i := by
    intro j
    rw [mem_tailPositions_iff hg, BitMatrix.mem_rowOnes, get_reverse hg, hg.get_iff,
      hg.indexOf?_iff.mp hi]
    refine exists_congr fun e => and_congr_right fun _ => ?_
    rw [and_comm, Option.some.injEq, eq_comm (a := id)]
  have hperm : (g.tailPositions id).Perm (g.reverse.adjacency.rowOnes i) :=
    (List.perm_ext_iff_of_nodup (hscan.imp Nat.ne_of_lt) (hrow.imp Nat.ne_of_lt)).mpr hmem
  exact hperm.eq_of_pairwise (fun a b _ _ hab hba => absurd hab (Nat.lt_asymm hba)) hscan hrow

lemma predecessors_eq (hg : g.WellFormed) (id : NodeId) :
    g.predecessors id = g.reverse.successors id := by
  unfold predecessors successors
  rw [contains_reverse hg]
  split
  next hid =>
    obtain ⟨i, hi⟩ := contains_iff_exists.mp hid
    unfold successorsOf
    rw [indexOf?_reverse hg, hi, nodes_reverse, tailPositions_eq_rowOnes hg hi]
  next => rfl

/-! ### Projections -/

/-- The graphs differ at most in the order of their nodes. -/
structure Reorders (g h : Graph) : Prop where
  name_eq : g.name = h.name
  nodes_perm : g.nodes.Perm h.nodes
  edges_eq : g.edges = h.edges
  /-- The matrices agree at the positions of the same nodes. -/
  get_eq : ∀ i j i' j', g.idAt? i = h.idAt? i' → g.idAt? j = h.idAt? j' →
    g.adjacency.get i j = h.adjacency.get i' j'

lemma reorders_of_perm (hg : g.WellFormed) (hh : h.WellFormed) (hname : g.name = h.name)
    (hnodes : g.nodes.Perm h.nodes) (hedges : g.edges = h.edges) : g.Reorders h where
  name_eq := hname
  nodes_perm := hnodes
  edges_eq := hedges
  get_eq i j i' j' hi hj := by rw [Bool.eq_iff_iff, hg.get_iff, hh.get_iff, hi, hj, hedges]

lemma project_project (hg : g.WellFormed) (d : Domain) : (g.project d).project d = g.project d := by
  have hpart := isPart_project hg d
  have hinside : (g.project d).edges.filter ((g.project d).edgeInside d) = (g.project d).edges := by
    refine List.filter_eq_self.mpr fun e he => ?_
    rw [hpart.edgeInside_eq hg he]
    rw [edges_project hg] at he
    exact (List.mem_filter.mp he).2
  have horder : (g.project d).nodes.map (·.id) =
      enteredIds (g.project d).nodes (g.project d).edges :=
    enteredIds_gathered hg (hg.bounds fun _ he => List.mem_of_mem_filter he) (nodesIn_subset g d)
  conv_lhs => rw [project, hinside]
  refine gathered_again hpart.wellFormed horder fun n hn _ => ?_
  simpa using ((mem_nodes_project_iff hg).mp hn).2

lemma reorders_project_reverse (hg : g.WellFormed) (d : Domain) :
    (g.reverse.project d).Reorders (g.project d).reverse := by
  have hpart := isPart_project hg d
  have hpart' := isPart_project hg.reverse d
  refine reorders_of_perm hpart'.wellFormed hpart.wellFormed.reverse ?_ ?_ ?_
  · rw [name_reverse, project, name_gathered, project, name_gathered, name_reverse]
  · rw [nodes_reverse, List.perm_ext_iff_of_nodup hpart'.wellFormed.nodup.of_map
      hpart.wellFormed.nodup.of_map]
    intro n
    rw [mem_nodes_project_iff hg.reverse, mem_nodes_project_iff hg, nodes_reverse]
  · rw [edges_project hg.reverse, edges_reverse hpart.wellFormed, edges_project hg,
      edges_reverse hg, List.filter_map]
    refine congrArg _ (List.filter_congr fun e he => ?_)
    have hrev : e.reversed ∈ g.reverse.edges := by
      rw [edges_reverse hg]
      exact List.mem_map_of_mem he
    exact ((isPart_reverse hg).edgeInside_eq hg hrev d).trans (Bool.and_comm _ _)

/-- What the edge list says of the nodes before a node is what the matrix of the reversed graph says
of those after it, node by node and in the same order, and the other way round; the matrix is
transposed. Reversing twice changes nothing. Nor does projecting a projection, and a reversed graph
is projected to the reversed projection, up to the order of the nodes. -/
theorem reverse_exchanges_neighbours (hg : g.WellFormed) :
    (∀ id, g.predecessors id = g.reverse.successors id ∧
        g.successors id = g.reverse.predecessors id) ∧
      g.reverse.adjacency = g.adjacency.transpose ∧ g.reverse.reverse = g ∧
      ∀ d, (g.project d).project d = g.project d ∧
        (g.reverse.project d).Reorders (g.project d).reverse := by
  refine ⟨fun id => ⟨predecessors_eq hg id, ?_⟩, adjacency_reverse hg, reverse_reverse hg,
    fun d => ⟨project_project hg d, reorders_project_reverse hg d⟩⟩
  rw [predecessors_eq hg.reverse, reverse_reverse hg]

/-- Parallel edges and two loops. The edges name the neighbours of the node in another order than
that of the positions, and the projection of the reversed graph has its nodes the other way round. -/
theorem reverse_exchanges_neighbours_parallel :
    let a : Node := { id := ⟨4⟩, kind := "A", domain := .source }
    let b : Node := { id := ⟨2⟩, kind := "B", domain := .source }
    let c : Node := { id := ⟨9⟩, kind := "C", domain := .target }
    let ab : Edge := { tail := ⟨4⟩, head := ⟨2⟩ }
    let bb : Edge := { tail := ⟨2⟩, head := ⟨2⟩, kind := some "self" }
    let cb : Edge := { tail := ⟨9⟩, head := ⟨2⟩ }
    let cc : Edge := { tail := ⟨9⟩, head := ⟨9⟩ }
    let g := (assemble [a, b, c] [cc, ab, ab, bb, cb]).after ∅
    g.WellFormed ∧ g.predecessors ⟨2⟩ = .ok [c, a, b] ∧
      g.reverse.successors ⟨2⟩ = .ok [c, a, b] ∧
      g.reverse.successors ⟨5⟩ = .error (.unknownNode ⟨5⟩) ∧ g.reverse.reverse = g ∧
      (g.reverse.project .source).nodes = [b, a] ∧ (g.project .source).reverse.nodes = [a, b] ∧
      (g.reverse.project .source).Reorders (g.project .source).reverse := by
  intro a b c ab bb cb cc g
  have hg : g.WellFormed := assemble_keeps_wellFormed _ _ ∅ (wellFormed_bare none)
  obtain ⟨hneighbours, -, hback, hproject⟩ := reverse_exchanges_neighbours hg
  have hbefore : g.predecessors ⟨2⟩ = .ok [c, a, b] := by decide +kernel
  have hlost : g.predecessors ⟨5⟩ = .error (.unknownNode ⟨5⟩) := by decide +kernel
  exact ⟨hg, hbefore, (hneighbours _).1.symm.trans hbefore, (hneighbours _).1.symm.trans hlost,
    hback, by decide +kernel, by decide +kernel, (hproject .source).2⟩

end TripleGrammar.Graph
