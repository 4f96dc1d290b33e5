import TripleGrammar.Graph.Lemmas
import TripleGrammar.Proofs.BacktrackingSearch

/-!
# Placings of one graph in another

The search works on matrices, whose rows and columns are the positions of nodes. Here its result is
said of graphs: a placing sends each position of a pattern to one of a host, and the search lists
those that send different nodes to different nodes and edges along edges.
-/

namespace TripleGrammar

namespace Graph

variable {g host pattern : Graph}

/-- Sends each node of the pattern to a node of the host, by positions. -/
abbrev Placing (host pattern : Graph) := Fin pattern.nodes.length → Fin host.nodes.length

/-- An edge runs from the node at one position to the node at another. -/
def Adjacent (g : Graph) (i j : Fin g.nodes.length) : Prop :=
  ∃ e ∈ g.edges, e.tail = (g.nodes.get i).id ∧ e.head = (g.nodes.get j).id

lemma idAt?_eq_get (i : Fin g.nodes.length) : g.idAt? i = some (g.nodes.get i).id :=
  idAt?_eq_some_iff.mpr ⟨g.nodes.get i, List.getElem?_eq_getElem i.isLt, rfl⟩

lemma exists_position {id : NodeId} (hid : id ∈ g.nodes.map (·.id)) :
    ∃ i : Fin g.nodes.length, (g.nodes.get i).id = id := by
  obtain ⟨n, hn, rfl⟩ := List.mem_map.mp hid
  obtain ⟨i, rfl⟩ := List.get_of_mem hn
  exact ⟨i, rfl⟩

lemma WellFormed.get_id_inj (hg : g.WellFormed) {i j : Fin g.nodes.length} :
    (g.nodes.get i).id = (g.nodes.get j).id ↔ i = j := by
  constructor
  · intro h
    have hi := hg.indexOf?_iff.mpr (idAt?_eq_get i)
    have hj := hg.indexOf?_iff.mpr (idAt?_eq_get j)
    rw [h] at hi
    exact Fin.ext (Option.some.inj (hi.symm.trans hj))
  · rintro rfl
    rfl

lemma WellFormed.get_adjacency_iff (hg : g.WellFormed) {i j : Fin g.nodes.length} :
    g.adjacency.get i j = true ↔ g.Adjacent i j := by
  rw [hg.get_iff]
  simp only [idAt?_eq_get, Option.some.injEq]
  exact exists_congr fun e => and_congr_right fun _ => and_congr eq_comm eq_comm

end Graph

namespace Backtracking

/-- The listed assignments, with other names for the numbers of nodes. -/
lemma exists_embeddings_eq_of_rows {host pattern : BitMatrix} {p h : Nat} (hp : pattern.rows = p)
    (hh : host.rows = h) (hpattern : pattern.cols = p) (hhost : host.cols = h)
    (compatible : Nat → Nat → Bool) :
    ∃ fs : List (Fin p → Fin h),
      (∀ f, f ∈ fs ↔ Function.Injective f ∧
        (∀ i k : Fin p, pattern.get i k = true → host.get (f i) (f k) = true) ∧
        ∀ i : Fin p, compatible i (f i) = true) ∧
      fs.Pairwise (fun f g => toLex f < toLex g) ∧
      Strategy.backtracking.embeddings host pattern compatible = fs.map BitMatrix.ofPlacing := by
  subst hp hh
  obtain ⟨fs, hfs, hlex, heq⟩ :=
    exists_embeddings_eq hhost.symm hpattern.symm compatible
  refine ⟨fs, fun f => (hfs f).trans ?_, hlex, heq⟩
  exact ⟨fun hf => ⟨hf.injective, hf.edge, hf.compatible⟩, fun hf => ⟨hf.1, hf.2.1, hf.2.2⟩⟩

end Backtracking

namespace Graph

variable {host pattern : Graph}

/-- The search lists the placings that it is asked for, in lexicographic order. -/
theorem exists_placings (hhost : host.WellFormed) (hpattern : pattern.WellFormed)
    (compatible : Nat → Nat → Bool) :
    ∃ fs : List (host.Placing pattern),
      (∀ f, f ∈ fs ↔ Function.Injective f ∧
        (∀ i k, pattern.Adjacent i k → host.Adjacent (f i) (f k)) ∧
        ∀ i : Fin pattern.nodes.length, compatible i (f i) = true) ∧
      fs.Pairwise (fun f g => toLex f < toLex g) ∧
      Strategy.backtracking.embeddings host.adjacency pattern.adjacency compatible =
        fs.map BitMatrix.ofPlacing := by
  obtain ⟨fs, hfs, hlex, heq⟩ := Backtracking.exists_embeddings_eq_of_rows hpattern.rows_eq
    hhost.rows_eq hpattern.cols_eq hhost.cols_eq compatible
  refine ⟨fs, fun f => (hfs f).trans ?_, hlex, heq⟩
  simp only [hpattern.get_adjacency_iff, hhost.get_adjacency_iff]

end Graph

end TripleGrammar
