import TripleGrammar.Proofs.Edits
import TripleGrammar.Proofs.Parts
import Mathlib.Data.List.Perm.Basic

/-!
# Graphs assembled from their parts

If there is one record for each node and the edges run between nodes that have a record, assembling
succeeds. The graph has these nodes, though perhaps in another order, and these edges.
-/

namespace TripleGrammar.Graph

variable {g : Graph} {records nodes : List Node} {edges : List Edge} {ids : List NodeId} {n : Node}
  {id : NodeId}

lemma of_find?_id (hfind : records.find? (·.id == id) = some n) : n ∈ records ∧ n.id = id :=
  ⟨List.mem_of_find?_eq_some hfind, by simpa using List.find?_some hfind⟩

lemma exists_record (hid : id ∈ records.map (·.id)) :
    ∃ n ∈ records, n.id = id ∧ records.find? (·.id == id) = some n := by
  obtain ⟨m, hm, rfl⟩ := List.mem_map.mp hid
  cases hfind : records.find? (·.id == m.id) with
  | none => simpa using List.find?_eq_none.mp hfind m hm
  | some n => exact ⟨n, (of_find?_id hfind).1, (of_find?_id hfind).2, rfl⟩

/-- The first record of each of the given nodes. -/
def recordsOf (records : List Node) (ids : List NodeId) : List Node :=
  ids.filterMap fun id => records.find? (·.id == id)

lemma recordsOf_subset (records : List Node) (ids : List NodeId) :
    recordsOf records ids ⊆ records := by
  intro n hn
  obtain ⟨id, -, hfind⟩ := List.mem_filterMap.mp hn
  exact (of_find?_id hfind).1

lemma recordsOf_cons (hfind : records.find? (·.id == id) = some n) (ids : List NodeId) :
    recordsOf records (id :: ids) = n :: recordsOf records ids :=
  List.filterMap_cons_some hfind

/-- Why the node with the given id is not entered by its first record, if it is not. -/
def refusal? (records : List Node) (id : NodeId) : Option GraphError :=
  match records.find? (·.id == id) with
  | some n =>
    if n.isDefault && !n.isCorrespondence then some (.defaultOutsideCorrespondence id) else none
  | none => some (.unknownNode id)

lemma refusal?_eq_none_iff : refusal? records id = none ↔ ∃ n,
    records.find? (·.id == id) = some n ∧ (n.isDefault = true → n.domain = .correspondence) := by
  unfold refusal?
  cases records.find? (·.id == id) with
  | none => simp
  | some n => simp [Node.isCorrespondence]

lemma refusal?_eq_none
    (hdefault : ∀ n ∈ records, n.isDefault = true → n.domain = .correspondence)
    (hid : id ∈ records.map (·.id)) : refusal? records id = none := by
  obtain ⟨n, hn, -, hfind⟩ := exists_record hid
  exact refusal?_eq_none_iff.mpr ⟨n, hfind, hdefault n hn⟩

lemma mem_ids_of_refusal? (hid : refusal? records id = none) : id ∈ records.map (·.id) := by
  obtain ⟨n, hfind, -⟩ := refusal?_eq_none_iff.mp hid
  exact List.mem_map.mpr ⟨n, of_find?_id hfind⟩

/-! ### The single steps -/

lemma run_enterRecorded (hfind : records.find? (·.id == id) = some n)
    (hdefault : n.isDefault = true → n.domain = .correspondence) :
    (enterRecorded records id).run g = .ok () (g.enterNew n) := by
  obtain ⟨-, hid⟩ := of_find?_id hfind
  unfold enterRecorded
  by_cases hold : g.contains id = true
  · rw [enterNew_of_contains (hid ▸ hold)]
    simp [hold]
  · simpa [hold, hfind] using run_addNode_ok hdefault

lemma run_enterRecorded_of_refusal? {err : GraphError} (hnew : ¬g.contains id = true)
    (herr : refusal? records id = some err) : (enterRecorded records id).run g = .error err g := by
  unfold refusal? at herr
  unfold enterRecorded
  cases hfind : records.find? (·.id == id) with
  | none =>
    rw [hfind] at herr
    obtain rfl := Option.some.inj herr
    simp [hnew]
  | some n =>
    obtain ⟨-, hid⟩ := of_find?_id hfind
    rw [hfind] at herr
    obtain ⟨hflag, herr⟩ := Option.ite_none_right_eq_some.mp herr
    obtain rfl := Option.some.inj herr
    have hadd : (addNode n).run g = .error (.defaultOutsideCorrespondence id) g := by
      rw [run_addNode, if_pos hflag, hid]
    simpa [hnew] using hadd

lemma run_forM_enterRecorded (hids : ∀ id ∈ ids, refusal? records id = none) :
    (ids.forM (enterRecorded records)).run g =
      .ok () ((recordsOf records ids).foldl enterNew g) := by
  induction ids generalizing g with
  | nil => rfl
  | cons id ids ih =>
    obtain ⟨n, hfind, hdefault⟩ := refusal?_eq_none_iff.mp (hids id List.mem_cons_self)
    rw [run_forM_cons (run_enterRecorded hfind hdefault), recordsOf_cons hfind]
    exact ih fun id' hid' => hids id' (List.mem_cons_of_mem _ hid')

lemma run_forM_addEdge (hedges : g.Bounds edges) :
    (edges.forM addEdge).run g = .ok () (edges.foldl join g) := by
  induction edges generalizing g with
  | nil => rfl
  | cons e edges ih =>
    obtain ⟨ht, hh⟩ := hedges e List.mem_cons_self
    have hrest : (g.join e).Bounds edges := by
      intro e' he'
      rw [contains_join, contains_join]
      exact hedges e' (List.mem_cons_of_mem _ he')
    have hjoin : (addEdge e).run g = .ok () (g.join e) := by
      rw [run_addEdge, if_pos ht, if_pos hh]
    rw [run_forM_cons hjoin]
    exact ih hrest

/-! ### The assembled graph -/

lemma mem_foldl_enterNew (hn : n ∈ (nodes.foldl enterNew g).nodes) :
    n ∈ g.nodes ∨ n ∈ nodes := by
  induction nodes generalizing g with
  | nil => exact Or.inl hn
  | cons m nodes ih =>
    rcases ih hn with hold | hnew
    · rw [enterNew] at hold
      split at hold
      · exact Or.inl hold
      · rcases List.mem_append.mp hold with hold | hm
        · exact Or.inl hold
        · exact Or.inr (List.mem_cons.mpr (Or.inl (List.mem_singleton.mp hm)))
    · exact Or.inr (List.mem_cons_of_mem _ hnew)

/-- A graph whose nodes are among the records and that has a node for each of them has just the
records as nodes. -/
lemma WellFormed.nodes_perm (hg : g.WellFormed) (hnodup : (records.map (·.id)).Nodup)
    (hsub : g.nodes ⊆ records) (hall : ∀ n ∈ records, g.contains n.id = true) :
    g.nodes.Perm records := by
  apply (List.perm_ext_iff_of_nodup hg.nodup.of_map hnodup.of_map).mpr
  intro n
  refine ⟨fun hn => hsub hn, fun hn => ?_⟩
  obtain ⟨m, hm, hid, -⟩ := hg.exists_find? (hall n hn)
  obtain rfl := List.inj_on_of_nodup_map hnodup (hsub hm) hn hid
  exact hm

/-- The nodes that assembling enters before it adds the edges. -/
def entered (records : List Node) (edges : List Edge) : Graph :=
  (recordsOf records (endpoints edges ++ records.map (·.id))).foldl enterNew ∅

lemma nodes_entered_subset (records : List Node) (edges : List Edge) :
    (entered records edges).nodes ⊆ records := by
  intro n hn
  rcases mem_foldl_enterNew hn with hold | hnew
  · cases hold
  · exact recordsOf_subset _ _ hnew

lemma contains_entered (hid : id ∈ records.map (·.id)) :
    (entered records edges).contains id = true := by
  obtain ⟨n, -, hnid, hfind⟩ := exists_record hid
  refine (contains_foldl_enterNew id).mpr (Or.inr ⟨n, ?_, hnid⟩)
  exact List.mem_filterMap.mpr ⟨id, List.mem_append_right _ hid, hfind⟩

lemma bounds_entered
    (hends : ∀ e ∈ edges, e.tail ∈ records.map (·.id) ∧ e.head ∈ records.map (·.id)) :
    (entered records edges).Bounds edges :=
  fun e he => ⟨contains_entered (hends e he).1, contains_entered (hends e he).2⟩

lemma forall_mem_endpoints_iff {P : NodeId → Prop} :
    (∀ id ∈ endpoints edges, P id) ↔ ∀ e ∈ edges, P e.tail ∧ P e.head := by
  simp only [endpoints, List.forall_mem_flatMap, List.mem_cons, List.not_mem_nil, or_false,
    forall_eq_or_imp, forall_eq]

/-- The ends of the edges and the other nodes are entered in one go. -/
lemma assemble_eq (records : List Node) (edges : List Edge) : assemble records edges =
    (endpoints edges ++ records.map (·.id)).forM (enterRecorded records) >>= fun _ =>
      edges.forM addEdge := by
  unfold assemble
  simp only [List.forM_eq_forM, List.forM_append, bind_assoc]

lemma run_assemble
    (hids : ∀ id ∈ endpoints edges ++ records.map (·.id), refusal? records id = none) :
    (assemble records edges).run ∅ = .ok () (edges.foldl join (entered records edges)) := by
  have hends : ∀ e ∈ edges, e.tail ∈ records.map (·.id) ∧ e.head ∈ records.map (·.id) :=
    forall_mem_endpoints_iff.mp fun id hid =>
      mem_ids_of_refusal? (hids id (List.mem_append_left _ hid))
  rw [assemble_eq, EStateM.run_bind, run_forM_enterRecorded hids]
  exact run_forM_addEdge (bounds_entered hends)

lemma ofParts_eq (hdefault : ∀ n ∈ records, n.isDefault = true → n.domain = .correspondence)
    (hends : ∀ e ∈ edges, e.tail ∈ records.map (·.id) ∧ e.head ∈ records.map (·.id)) :
    ofParts records edges = .ok (edges.foldl join (entered records edges)) := by
  have hids : ∀ id ∈ endpoints edges ++ records.map (·.id), refusal? records id = none := by
    intro id hid
    apply refusal?_eq_none hdefault
    rcases List.mem_append.mp hid with hid | hid
    · exact forall_mem_endpoints_iff.mpr hends id hid
    · exact hid
  unfold ofParts
  rw [run_assemble hids]

lemma edges_foldl_join_entered
    (hends : ∀ e ∈ edges, e.tail ∈ records.map (·.id) ∧ e.head ∈ records.map (·.id)) :
    (edges.foldl join (entered records edges)).edges = edges := by
  rw [edges_foldl_join (bounds_entered hends)]
  unfold entered
  rw [edges_foldl_enterNew]
  rfl

/-- Records with different ids can be assembled with any edges between them. -/
theorem exists_ofParts (hnodup : (records.map (·.id)).Nodup)
    (hdefault : ∀ n ∈ records, n.isDefault = true → n.domain = .correspondence)
    (hends : ∀ e ∈ edges, e.tail ∈ records.map (·.id) ∧ e.head ∈ records.map (·.id)) :
    ∃ g, ofParts records edges = .ok g ∧ g.nodes.Perm records ∧ g.edges = edges := by
  have hparts := ofParts_eq hdefault hends
  refine ⟨_, hparts, (wellFormed_of_ofParts hparts).nodes_perm hnodup ?_ ?_,
    edges_foldl_join_entered hends⟩
  · rw [nodes_foldl_join]
    exact nodes_entered_subset records edges
  · intro n hn
    rw [contains_foldl_join]
    exact contains_entered (List.mem_map_of_mem hn)

end TripleGrammar.Graph
