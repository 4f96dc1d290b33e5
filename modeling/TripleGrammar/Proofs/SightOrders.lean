import TripleGrammar.Proofs.EnteredNodes

/-!
# The order in which nodes come into sight

A part of a graph is made of edges and further nodes of it. Its nodes stand in the order in which
the edges come upon them, tail before head, and after them come the further nodes. A part that is
made of all that a part holds is that part.
-/

namespace TripleGrammar.Graph

variable {g h : Graph} {records records' nodes : List Node} {edges : List Edge} {id : NodeId}
  {n : Node} {e : Edge} {name : Option String}

/-! ### First occurrences -/

section

variable {α : Type} [BEq α] [LawfulBEq α] {l l' m : List α}

lemma eraseDups_eq_self (h : l.Nodup) : l.eraseDups = l := by
  induction l with
  | nil => rfl
  | cons a l ih =>
    obtain ⟨ha, hl⟩ := List.nodup_cons.mp h
    have hrest : l.filter (fun b => !b == a) = l :=
      List.filter_eq_self.mpr fun b hb => by simpa using ne_of_mem_of_not_mem hb ha
    rw [List.eraseDups_cons, hrest, ih hl]

lemma nodup_eraseDups (l : List α) : l.eraseDups.Nodup := by
  induction hn : l.length using Nat.strongRecOn generalizing l with
  | ind n ih =>
    cases l with
    | nil => exact List.nodup_nil
    | cons a l =>
      have hshort : (l.filter fun b => !b == a).length < n :=
        hn ▸ Nat.lt_succ_of_le (List.length_filter_le _ l)
      rw [List.eraseDups_cons]
      exact List.nodup_cons.mpr ⟨by simp [List.mem_eraseDups], ih _ hshort _ rfl⟩

/-- Only what is new makes a difference at the end. -/
lemma eraseDups_append_congr (h : l.removeAll m = l'.removeAll m) :
    (m ++ l).eraseDups = (m ++ l').eraseDups := by
  rw [List.eraseDups_append, List.eraseDups_append, h]

lemma eraseDups_eraseDups_append (l l' : List α) :
    (l.eraseDups ++ l').eraseDups = (l ++ l').eraseDups := by
  have hnew : l'.removeAll l.eraseDups = l'.removeAll l :=
    List.filter_congr fun a _ => by simp [List.mem_eraseDups]
  rw [List.eraseDups_append, List.eraseDups_append, hnew, eraseDups_eq_self (nodup_eraseDups l)]

/-- What has been in sight from the beginning is not seen anew. -/
lemma eraseDups_append_self (l l' : List α) :
    (l ++ (l ++ l').eraseDups).eraseDups = (l ++ l').eraseDups := by
  have hseen : (l ++ l').eraseDups.removeAll l = (l'.removeAll l).eraseDups := by
    have hold : l.eraseDups.removeAll l = [] :=
      List.filter_eq_nil_iff.mpr fun a ha => by simpa using List.mem_eraseDups.mp ha
    have hnew : (l'.removeAll l).eraseDups.removeAll l = (l'.removeAll l).eraseDups :=
      List.filter_eq_self.mpr fun a ha =>
        (List.mem_filter.mp (List.mem_eraseDups.mp ha)).2
    unfold List.removeAll at hold hnew ⊢
    rw [List.eraseDups_append, List.filter_append]
    unfold List.removeAll
    rw [hold, hnew, List.nil_append]
  rw [List.eraseDups_append, hseen, eraseDups_eq_self (nodup_eraseDups _), ← List.eraseDups_append]

end

/-! ### Records that are told apart by their ids -/

lemma find?_id_iff (hnodup : (records.map (·.id)).Nodup) :
    records.find? (·.id == id) = some n ↔ n ∈ records ∧ n.id = id := by
  refine ⟨of_find?_id, ?_⟩
  rintro ⟨hn, rfl⟩
  obtain ⟨m, hm, hid, hfind⟩ := exists_record (List.mem_map_of_mem (f := (·.id)) hn)
  rw [hfind, List.inj_on_of_nodup_map hnodup hm hn hid]

lemma recordsOf_map_id (hnodup : (records.map (·.id)).Nodup) (hsub : records' ⊆ records) :
    recordsOf records (records'.map (·.id)) = records' := by
  unfold recordsOf
  rw [List.filterMap_map, List.filterMap_congr (g := some)]
  · exact List.filterMap_some
  · exact fun n hn => (find?_id_iff hnodup).mpr ⟨hsub hn, rfl⟩

/-- Nodes of a graph are told by their ids, in whatever order they stand. -/
lemma WellFormed.eq_of_map_id (hg : g.WellFormed) (hsub : records ⊆ g.nodes)
    (hsub' : records' ⊆ g.nodes) (hids : records.map (·.id) = records'.map (·.id)) :
    records = records' := by
  rw [← recordsOf_map_id hg.nodup hsub, hids, recordsOf_map_id hg.nodup hsub']

/-! ### The order of the nodes in a part -/

lemma WellFormed.map_id_enterNew (hh : h.WellFormed) (n : Node) :
    (h.enterNew n).nodes.map (·.id) = (h.nodes.map (·.id) ++ [n.id]).eraseDups := by
  by_cases hold : h.contains n.id = true
  · have hseen : [n.id].removeAll (h.nodes.map (·.id)) = [] :=
      List.filter_eq_nil_iff.mpr fun id hid => by
        obtain rfl := List.mem_singleton.mp hid
        simpa using List.mem_map.mp (hh.contains_iff.mp hold)
    rw [enterNew_of_contains hold, List.eraseDups_append, hseen, List.eraseDups_nil,
      List.append_nil, eraseDups_eq_self hh.nodup]
  · have hnew : n.id ∉ h.nodes.map (·.id) := fun hmem => hold (hh.contains_iff.mpr hmem)
    rw [enterNew_of_not_contains (by simpa using hold), eraseDups_eq_self]
    · exact List.map_append
    · exact hh.nodup.append (List.nodup_singleton _) (List.disjoint_singleton.mpr hnew)

lemma IsPart.map_id_foldl_enterNew (hg : g.WellFormed) (hnodes : nodes ⊆ g.nodes)
    (hh : g.IsPart h) : (nodes.foldl Graph.enterNew h).nodes.map (·.id) =
      (h.nodes.map (·.id) ++ nodes.map (·.id)).eraseDups := by
  induction nodes generalizing h with
  | nil => simp [eraseDups_eq_self hh.wellFormed.nodup]
  | cons n nodes ih =>
    rw [List.foldl_cons, ih (fun m hm => hnodes (List.mem_cons_of_mem _ hm))
      (hh.enterNew hg (hnodes List.mem_cons_self)), hh.wellFormed.map_id_enterNew,
      eraseDups_eraseDups_append, List.append_assoc, List.map_cons, List.singleton_append]

lemma IsPart.map_id_enterFrom (hg : g.WellFormed) (hh : g.IsPart h) (hid : g.contains id = true) :
    (g.enterFrom h id).nodes.map (·.id) = (h.nodes.map (·.id) ++ [id]).eraseDups := by
  obtain ⟨n, -, rfl, hfind⟩ := hg.exists_find? hid
  unfold Graph.enterFrom
  rw [hfind]
  exact hh.wellFormed.map_id_enterNew n

lemma IsPart.map_id_foldl_joinFrom (hg : g.WellFormed) (hedges : g.Bounds edges)
    (hh : g.IsPart h) : (edges.foldl g.joinFrom h).nodes.map (·.id) =
      (h.nodes.map (·.id) ++ endpoints edges).eraseDups := by
  induction edges generalizing h with
  | nil => simp [endpoints, eraseDups_eq_self hh.wellFormed.nodup]
  | cons e edges ih =>
    obtain ⟨ht, hhd⟩ := hedges e List.mem_cons_self
    have hends : (g.joinFrom h e).nodes.map (·.id) =
        (h.nodes.map (·.id) ++ [e.tail, e.head]).eraseDups := by
      unfold Graph.joinFrom
      rw [nodes_join, (hh.enterFrom hg e.tail).map_id_enterFrom hg hhd, hh.map_id_enterFrom hg ht,
        eraseDups_eraseDups_append, List.append_assoc]
      rfl
    rw [List.foldl_cons, ih (fun e' he' => hedges e' (List.mem_cons_of_mem _ he'))
      (hh.joinFrom hg e), hends, eraseDups_eraseDups_append, List.append_assoc]
    rfl

lemma map_id_gathered (hg : g.WellFormed) (hedges : g.Bounds edges) (hnodes : nodes ⊆ g.nodes) :
    (nodes.foldl enterNew (g.partOf edges name)).nodes.map (·.id) =
      (endpoints edges ++ nodes.map (·.id)).eraseDups := by
  have hpart : (g.partOf edges name).nodes.map (·.id) = (endpoints edges).eraseDups :=
    (isPart_bare g name).map_id_foldl_joinFrom hg hedges
  rw [(isPart_partOf hg edges name).map_id_foldl_enterNew hg hnodes, hpart,
    eraseDups_eraseDups_append]

lemma name_enterFrom : (g.enterFrom h id).name = h.name := by
  unfold enterFrom
  split
  · exact name_enterNew
  · rfl

lemma name_joinFrom : (g.joinFrom h e).name = h.name := by
  unfold joinFrom
  rw [name_join, name_enterFrom, name_enterFrom]

lemma name_foldl_joinFrom : (edges.foldl g.joinFrom h).name = h.name := by
  induction edges generalizing h with
  | nil => rfl
  | cons e edges ih => rw [List.foldl_cons, ih, name_joinFrom]

lemma name_foldl_enterNew : (nodes.foldl enterNew h).name = h.name := by
  induction nodes generalizing h with
  | nil => rfl
  | cons n nodes ih => rw [List.foldl_cons, ih, name_enterNew]

lemma name_gathered : (nodes.foldl enterNew (g.partOf edges name)).name = name :=
  name_foldl_enterNew.trans name_foldl_joinFrom

/-- Whatever its edges and those of its nodes that no edge touches are gathered from, a graph in
which the nodes stand as the edges come upon them is gathered anew as it is. -/
lemma gathered_again {p : Node → Bool} (hh : h.WellFormed)
    (horder : h.nodes.map (·.id) = enteredIds h.nodes h.edges)
    (hp : ∀ n ∈ h.nodes, n.id ∉ endpoints h.edges → p n = true) :
    (h.nodes.filter p).foldl enterNew (h.partOf h.edges name) = { h with name } := by
  have hbounds : h.Bounds h.edges := hh.bounds (List.Subset.refl _)
  have hsub : h.nodes.filter p ⊆ h.nodes := List.filter_subset_self _
  have hpart := (isPart_partOf hh h.edges name).foldl_enterNew hh hsub
  have hnew : ((h.nodes.filter p).map (·.id)).removeAll (endpoints h.edges) =
      (h.nodes.map (·.id)).removeAll (endpoints h.edges) := by
    unfold List.removeAll
    rw [List.filter_map, List.filter_map, List.filter_filter]
    refine congrArg _ (List.filter_congr fun n hn => ?_)
    by_cases htouched : n.id ∈ endpoints h.edges
    · simp [htouched]
    · simp [htouched, hp n hn htouched]
  refine hpart.wellFormed.ext (hh.renamed name) name_gathered ?_ ?_
  · refine hh.eq_of_map_id (fun n hn => hpart.mem n hn) (List.Subset.refl _) ?_
    rw [map_id_gathered hh hbounds hsub, eraseDups_append_congr hnew, ← enteredIds_eq, horder]
  · rw [edges_foldl_enterNew, edges_partOf hh hbounds]

/-- The nodes of a gathered graph stand as its edges come upon them. -/
lemma enteredIds_gathered (hg : g.WellFormed) (hedges : g.Bounds edges) (hnodes : nodes ⊆ g.nodes) :
    let h := nodes.foldl enterNew (g.partOf edges name)
    h.nodes.map (·.id) = enteredIds h.nodes h.edges := by
  intro h
  have hids : h.nodes.map (·.id) = (endpoints edges ++ nodes.map (·.id)).eraseDups :=
    map_id_gathered hg hedges hnodes
  have hkept : h.edges = edges := by
    rw [edges_foldl_enterNew, edges_partOf hg hedges]
  rw [enteredIds_eq, hkept, hids, eraseDups_append_self]

end TripleGrammar.Graph
