import TripleGrammar.Proofs.Copies
import TripleGrammar.Proofs.RenamedPrunings
import Mathlib.Data.List.Find

/-!
# Pruning a graph and a copy

What pruning fails at and what it keeps is said of edges, labels and flags, so it is the same in a
graph and in a copy. What is kept is assembled in an order that depends on edges and positions, so
pruning the copy gives a copy of what pruning the graph gives.
-/

namespace TripleGrammar.Graph

variable {g h : Graph} {τ : NodeId → NodeId} {d : Domain}

namespace Copies

/-! ### What cannot be pruned -/

lemma linkedCount_eq (hc : h.Copies g τ) (hg : g.WellFormed) (hh : h.WellFormed) {c : NodeId}
    (hcmem : g.contains c = true) : h.linkedCount d (τ c) = g.linkedCount d c := by
  unfold linkedCount nodesIn
  rw [hc.nodes, List.filter_map, List.countP_map]
  change (g.nodes.filter fun n => n.domain == d).countP _ = _
  apply List.countP_congr
  intro n hn
  have hmem := hg.contains_of_mem (List.mem_filter.mp hn).1
  simp only [Function.comp_apply, List.any_eq_true, Bool.and_eq_true, beq_iff_eq]
  constructor
  · rintro ⟨e', he', ht, hd⟩
    obtain ⟨e, he, rfl⟩ := hc.exists_edge he'
    exact ⟨e, he, (hc.inj hg hh (hg.contains_tail he) hcmem).mp ht,
      (hc.inj hg hh (hg.contains_head he) hmem).mp hd⟩
  · rintro ⟨e, he, rfl, hd⟩
    exact ⟨e.mapIds τ, hc.mem_edges he, rfl, congrArg τ hd⟩

lemma find?_unpaired (hc : h.Copies g τ) (hg : g.WellFormed) (hh : h.WellFormed) :
    h.nodes.find? h.unpaired = (g.nodes.find? g.unpaired).map (·.mapId τ) := by
  rw [hc.nodes, List.find?_map]
  congr 1
  apply List.find?_congr
  intro n hn
  have hmem := hg.contains_of_mem hn
  change h.unpaired (n.mapId τ) = g.unpaired n
  unfold unpaired isPairing Node.mapId
  dsimp only
  rw [hc.linkedCount_eq hg hh hmem, hc.linkedCount_eq hg hh hmem]

/-! ### Assembling what is kept -/

lemma enterNew (hc : h.Copies g τ) (hg : g.WellFormed) (hh : h.WellFormed) {n : Node}
    (hinj : ∀ m ∈ g.nodes, τ m.id = τ n.id → m.id = n.id) :
    (h.enterNew (n.mapId τ)).Copies (g.enterNew n) τ := by
  by_cases hold : g.contains n.id = true
  · rw [enterNew_of_contains hold, enterNew_of_contains (hc.contains hg hh hold)]
    exact hc
  · have hnew : h.contains (n.mapId τ).id = false := by
      rw [Bool.eq_false_iff]
      intro hcontains
      obtain ⟨m', hm', hid, -⟩ := hh.exists_find? hcontains
      obtain ⟨m, hm, rfl⟩ := hc.exists_node hm'
      apply hold
      rw [← hinj m hm hid]
      exact hg.contains_of_mem hm
    rw [enterNew_of_not_contains (Bool.eq_false_iff.mpr hold), enterNew_of_not_contains hnew]
    refine ⟨hc.name, ?_, hc.edges⟩
    rw [nodes_enter, nodes_enter, hc.nodes, List.map_append]
    rfl

lemma foldl_enterNew (hc : h.Copies g τ) (hg : g.WellFormed) (hh : h.WellFormed)
    {nodes : List Node} {S : Set NodeId} (hinj : Set.InjOn τ S) (hgS : ∀ m ∈ g.nodes, m.id ∈ S)
    (hS : ∀ n ∈ nodes, n.id ∈ S)
    (hdefault : ∀ n ∈ nodes, n.isDefault = true → n.domain = .correspondence) :
    ((nodes.map (·.mapId τ)).foldl Graph.enterNew h).Copies (nodes.foldl Graph.enterNew g) τ := by
  induction nodes generalizing g h with
  | nil => exact hc
  | cons n nodes ih =>
    obtain ⟨hn, hrest⟩ := List.forall_mem_cons.mp hS
    obtain ⟨hflag, hflags⟩ := List.forall_mem_cons.mp hdefault
    have hstep := hc.enterNew hg hh (n := n) fun m hm heq => hinj (hgS m hm) hn heq
    refine ih hstep (hg.enterNew hflag) (hh.enterNew hflag) ?_ hrest hflags
    intro m hm
    rcases @mem_foldl_enterNew g [n] m hm with hold | hnew
    · exact hgS m hold
    · rw [List.mem_singleton.mp hnew]
      exact hn

end Copies

section

variable {records : List Node} {edges : List Edge} {S : Set NodeId}

lemma endpoints_map (edges : List Edge) :
    endpoints (edges.map (·.mapIds τ)) = (endpoints edges).map τ := by
  unfold endpoints
  rw [List.flatMap_map, List.map_flatMap]
  rfl

lemma recordsOf_map (hinj : Set.InjOn τ S) (hrecords : ∀ n ∈ records, n.id ∈ S)
    {ids : List NodeId} (hids : ∀ id ∈ ids, id ∈ S) :
    recordsOf (records.map (·.mapId τ)) (ids.map τ) = (recordsOf records ids).map (·.mapId τ) := by
  unfold recordsOf
  rw [List.filterMap_map, List.map_filterMap]
  apply List.filterMap_congr
  intro id hid
  rw [Function.comp_apply, List.find?_map]
  congr 1
  apply List.find?_congr
  intro n hn
  rw [Function.comp_apply, Bool.eq_iff_iff, beq_iff_eq, beq_iff_eq]
  exact hinj.eq_iff (hrecords n hn) (hids id hid)

/-- Records and edges with other ids are assembled to a copy. -/
lemma copies_of_ofParts (hinj : Set.InjOn τ S) (hrecords : ∀ n ∈ records, n.id ∈ S)
    (hdefault : ∀ n ∈ records, n.isDefault = true → n.domain = .correspondence)
    (hends : ∀ e ∈ edges, e.tail ∈ records.map (·.id) ∧ e.head ∈ records.map (·.id))
    (hparts : ofParts records edges = .ok g)
    (hparts' : ofParts (records.map (·.mapId τ)) (edges.map (·.mapIds τ)) = .ok h) :
    h.Copies g τ := by
  have hids : (records.map (·.mapId τ)).map (·.id) = (records.map (·.id)).map τ := by
    rw [List.map_map, List.map_map]
    rfl
  have hdefault' : ∀ n ∈ records.map (·.mapId τ), n.isDefault = true →
      n.domain = .correspondence := by
    intro n' hn'
    obtain ⟨n, hn, rfl⟩ := List.mem_map.mp hn'
    exact hdefault n hn
  have hends' : ∀ e ∈ edges.map (·.mapIds τ), e.tail ∈ (records.map (·.mapId τ)).map (·.id) ∧
      e.head ∈ (records.map (·.mapId τ)).map (·.id) := by
    intro e' he'
    obtain ⟨e, he, rfl⟩ := List.mem_map.mp he'
    rw [hids]
    exact ⟨List.mem_map_of_mem (hends e he).1, List.mem_map_of_mem (hends e he).2⟩
  have hmem : ∀ id ∈ endpoints edges ++ records.map (·.id), id ∈ S := by
    intro id hid
    have hid : id ∈ records.map (·.id) := by
      rcases List.mem_append.mp hid with hend | hrecord
      · obtain ⟨e, he, hid⟩ := List.mem_flatMap.mp hend
        rcases List.mem_pair.mp hid with rfl | rfl
        · exact (hends e he).1
        · exact (hends e he).2
      · exact hrecord
    obtain ⟨n, hn, rfl⟩ := List.mem_map.mp hid
    exact hrecords n hn
  have hempty : (∅ : Graph).Copies ∅ τ := ⟨rfl, rfl, rfl⟩
  have hentered : (entered (records.map (·.mapId τ)) (edges.map (·.mapIds τ))).Copies
      (entered records edges) τ := by
    unfold entered
    rw [endpoints_map, hids, ← List.map_append, recordsOf_map hinj hrecords hmem]
    refine hempty.foldl_enterNew (wellFormed_bare none) (wellFormed_bare none) hinj ?_ ?_ ?_
    · exact fun m hm => absurd hm List.not_mem_nil
    · exact fun n hn => hrecords n (recordsOf_subset _ _ hn)
    · exact fun n hn => hdefault n (recordsOf_subset _ _ hn)
  obtain rfl := Except.ok.inj (hparts.symm.trans (ofParts_eq hdefault hends))
  obtain rfl := Except.ok.inj (hparts'.symm.trans (ofParts_eq hdefault' hends'))
  refine ⟨?_, ?_, ?_⟩
  · rw [name_foldl_join, name_foldl_join, hentered.name]
  · rw [nodes_foldl_join, nodes_foldl_join, hentered.nodes]
  · rw [edges_foldl_join_entered hends, edges_foldl_join_entered hends']

end

/-- Pruning fails at corresponding nodes of a graph and a copy, with the same counts, or it gives a
graph and a copy of that. -/
theorem Copies.prune (hc : h.Copies g τ) (hg : g.WellFormed) (hh : h.WellFormed) (d : Domain) :
    (∃ c s t, g.prune d = .error (.defaultArity c s t) ∧
        h.prune d = .error (.defaultArity (τ c) s t)) ∨
      ∃ p p', g.prune d = .ok p ∧ h.prune d = .ok p' ∧ p'.graph.Copies p.graph τ := by
  have hinj : Set.InjOn τ {id | g.contains id = true} := fun a ha b hb => (hc.inj hg hh ha hb).mp
  have hfind := hc.find?_unpaired hg hh
  cases hfirst : g.nodes.find? g.unpaired with
  | some c =>
    rw [hfirst] at hfind
    have hcmem := hg.contains_of_mem (List.mem_of_find?_eq_some hfirst)
    have herror := prune_eq_error hh (d := d) hfind
    change h.prune d = .error (.defaultArity (τ c.id) (h.linkedCount .source (τ c.id))
      (h.linkedCount .target (τ c.id))) at herror
    rw [hc.linkedCount_eq hg hh hcmem, hc.linkedCount_eq hg hh hcmem] at herror
    exact Or.inl ⟨_, _, _, prune_eq_error hg hfirst, herror⟩
  | none =>
    rw [hfirst] at hfind
    obtain ⟨p, hp, hname, keep, hkeep, a, hparts, hnodes, hedges⟩ :=
      exists_prune_eq hg (d := d) hfirst
    obtain ⟨p', hp', hname', keep', hkeep', a', hparts', hnodes', hedges'⟩ :=
      exists_prune_eq hh (d := d) hfind
    have hsame : ∀ id, g.contains id = true → keep' (τ id) = keep id := by
      intro id hid
      rw [Bool.eq_iff_iff, hkeep, hkeep', (hc.renames hh).kept_iff hh hg hid]
    have hfilter : (h.nodes.filter fun n => keep' n.id) =
        (g.nodes.filter fun n => keep n.id).map (·.mapId τ) := by
      rw [hc.nodes, List.filter_map]
      congr 1
      exact List.filter_congr fun n hn => hsame n.id (hg.contains_of_mem hn)
    have hfilter' : (h.edges.filter fun e => keep' e.tail && keep' e.head) =
        (g.edges.filter fun e => keep e.tail && keep e.head).map (·.mapIds τ) := by
      rw [hc.edges, List.filter_map]
      congr 1
      apply List.filter_congr
      intro e he
      change (keep' (τ e.tail) && keep' (τ e.head)) = _
      rw [hsame _ (hg.contains_tail he), hsame _ (hg.contains_head he)]
    rw [hfilter, hfilter'] at hparts'
    have hcopy := copies_of_ofParts hinj
      (fun n hn => hg.contains_of_mem (List.mem_filter.mp hn).1)
      (fun n hn => hg.default_mem n (List.mem_filter.mp hn).1) (ends_filter hg keep) hparts hparts'
    exact Or.inr ⟨p, p', hp, hp', by rw [hname, hname', hc.name], by
      rw [hnodes, hnodes', hcopy.nodes], by rw [hedges, hedges', hcopy.edges]⟩

end TripleGrammar.Graph
