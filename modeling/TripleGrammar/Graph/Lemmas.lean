import TripleGrammar.BitMatrix.Lemmas
import TripleGrammar.Graph.Basic
import TripleGrammar.SortedMap.Lemmas
import Mathlib.Data.List.Nodup

/-!
# Lemmas about graphs

What the operations that add a node or an edge do to nodes, positions and edges, how a well-formed
graph is looked up, and that adding keeps a graph well formed.
-/

namespace TripleGrammar.Graph

variable {g : Graph} {n : Node} {e : Edge} {id : NodeId} {i j : Nat} {d : Domain}

/-! ### Positions -/

theorem idAt?_eq_some_iff : g.idAt? i = some id ↔ ∃ n, g.nodes[i]? = some n ∧ n.id = id := by
  simp [idAt?]

theorem lt_of_idAt? (h : g.idAt? i = some id) : i < g.nodes.length := by
  obtain ⟨n, hn, -⟩ := idAt?_eq_some_iff.1 h
  exact (List.getElem?_eq_some_iff.1 hn).1

theorem exists_idAt?_iff : (∃ i, g.idAt? i = some id) ↔ id ∈ g.nodes.map (·.id) := by
  simp only [idAt?, ← List.getElem?_map]
  exact List.mem_iff_getElem?.symm

theorem contains_iff_exists : g.contains id = true ↔ ∃ i, g.indexOf? id = some i := by
  rw [← Option.isSome_iff_exists]
  rfl

theorem nodup_ids_cons {nodes : List Node} (h : ((n :: nodes).map (·.id)).Nodup) :
    (∀ m ∈ nodes, m.id ≠ n.id) ∧ (nodes.map (·.id)).Nodup := by
  obtain ⟨hfirst, hrest⟩ := List.nodup_cons.1 h
  exact ⟨fun m hm heq => hfirst (List.mem_map.2 ⟨m, hm, heq⟩), hrest⟩

/-! ### Entering a node -/

@[simp] theorem name_enter : (g.enter n).name = g.name := rfl

@[simp] theorem nodes_enter : (g.enter n).nodes = g.nodes ++ [n] := rfl

@[simp] theorem edges_enter : (g.enter n).edges = g.edges := rfl

theorem indexOf?_enter_self : (g.enter n).indexOf? n.id = some g.nodes.length :=
  SortedMap.get?_insert_self ..

theorem indexOf?_enter_of_ne (h : id ≠ n.id) : (g.enter n).indexOf? id = g.indexOf? id :=
  SortedMap.get?_insert_of_ne _ _ h

theorem idAt?_enter :
    (g.enter n).idAt? i = if i = g.nodes.length then some n.id else g.idAt? i := by
  simp only [idAt?, nodes_enter]
  split
  next h => simp [h]
  next h =>
    by_cases hi : i < g.nodes.length
    · rw [List.getElem?_append_left hi]
    · rw [List.getElem?_eq_none (by simp; omega), List.getElem?_eq_none (by omega)]

@[simp] theorem contains_enter : (g.enter n).contains id = (id == n.id || g.contains id) := by
  by_cases h : id = n.id
  · subst h
    simp [contains_iff_exists, indexOf?_enter_self]
  · have hcontains : (g.enter n).contains id = g.contains id := by
      rw [contains, SortedMap.contains, ← indexOf?, indexOf?_enter_of_ne h]
      rfl
    simp [hcontains, h]

theorem enterNew_of_contains (h : g.contains n.id = true) : g.enterNew n = g := if_pos h

theorem enterNew_of_not_contains (h : g.contains n.id = false) : g.enterNew n = g.enter n :=
  if_neg (by simp [h])

@[simp] theorem name_enterNew : (g.enterNew n).name = g.name := by
  rw [enterNew]; split <;> rfl

@[simp] theorem edges_enterNew : (g.enterNew n).edges = g.edges := by
  rw [enterNew]; split <;> rfl

@[simp] theorem contains_enterNew :
    (g.enterNew n).contains id = (id == n.id || g.contains id) := by
  rw [enterNew]
  split
  next h =>
    by_cases hid : id = n.id
    · simp [hid, h]
    · simp [hid]
  · exact contains_enter

/-! ### Joining two nodes -/

@[simp] theorem name_join : (g.join e).name = g.name := by
  rw [join]; split <;> rfl

@[simp] theorem nodes_join : (g.join e).nodes = g.nodes := by
  rw [join]; split <;> rfl

@[simp] theorem indexOf?_join : (g.join e).indexOf? id = g.indexOf? id := by
  rw [join]; split <;> rfl

@[simp] theorem contains_join : (g.join e).contains id = g.contains id := by
  rw [contains, SortedMap.contains, ← indexOf?, indexOf?_join]
  rfl

@[simp] theorem idAt?_join : (g.join e).idAt? i = g.idAt? i := by
  simp [idAt?]

@[simp] theorem find?_join : (g.join e).find? id = g.find? id := by
  simp [find?]

theorem join_of_indexOf? (hi : g.indexOf? e.tail = some i) (hj : g.indexOf? e.head = some j) :
    g.join e = { g with adjacency := g.adjacency.set i j true, edges := g.edges ++ [e] } := by
  simp [join, hi, hj]

theorem edges_join (ht : g.contains e.tail = true) (hh : g.contains e.head = true) :
    (g.join e).edges = g.edges ++ [e] := by
  obtain ⟨i, hi⟩ := contains_iff_exists.1 ht
  obtain ⟨j, hj⟩ := contains_iff_exists.1 hh
  rw [join_of_indexOf? hi hj]

theorem join_of_not_contains (h : ¬(g.contains e.tail = true ∧ g.contains e.head = true)) :
    g.join e = g := by
  rw [join]
  split
  next hi hj => exact absurd ⟨contains_iff_exists.2 ⟨_, hi⟩, contains_iff_exists.2 ⟨_, hj⟩⟩ h
  · rfl

/-! ### Looking up -/

theorem filter_eq_filterMap_range {α : Type} (p : α → Bool) (l : List α) :
    l.filter p = (List.range l.length).filterMap fun j => l[j]?.filter p := by
  induction l with
  | nil => rfl
  | cons a l ih =>
    rw [List.length_cons, List.range_succ_eq_map, List.filterMap_cons, List.filterMap_map]
    by_cases ha : p a = true <;> simp [ha, ih, Option.filter]

namespace WellFormed

theorem rows_eq_cols (h : g.WellFormed) : g.adjacency.rows = g.adjacency.cols :=
  h.rows_eq.trans h.cols_eq.symm

theorem indexOf?_iff (h : g.WellFormed) : g.indexOf? id = some i ↔ g.idAt? i = some id :=
  h.index_iff id i

theorem contains_iff (h : g.WellFormed) : g.contains id = true ↔ id ∈ g.nodes.map (·.id) := by
  simp only [contains_iff_exists, h.indexOf?_iff, exists_idAt?_iff]

theorem contains_of_mem (h : g.WellFormed) (hn : n ∈ g.nodes) : g.contains n.id = true :=
  h.contains_iff.2 (List.mem_map_of_mem hn)

theorem contains_tail (h : g.WellFormed) (he : e ∈ g.edges) : g.contains e.tail = true :=
  h.contains_iff.2 (h.tail_mem e he)

theorem contains_head (h : g.WellFormed) (he : e ∈ g.edges) : g.contains e.head = true :=
  h.contains_iff.2 (h.head_mem e he)

theorem eq_of_id_eq (h : g.WellFormed) {m : Node} (hn : n ∈ g.nodes) (hm : m ∈ g.nodes)
    (hid : n.id = m.id) : n = m :=
  List.inj_on_of_nodup_map h.nodup hn hm hid

/-- Name, nodes and edges make the graph. -/
theorem ext {g' : Graph} (h : g.WellFormed) (h' : g'.WellFormed) (hname : g.name = g'.name)
    (hnodes : g.nodes = g'.nodes) (hedges : g.edges = g'.edges) : g = g' := by
  have hid : ∀ i, g.idAt? i = g'.idAt? i := fun i => by rw [idAt?, idAt?, hnodes]
  have hindex : g.index = g'.index :=
    SortedMap.ext_get? fun id => Option.ext fun i => by rw [h.index_iff, h'.index_iff, hid]
  have hadjacency : g.adjacency = g'.adjacency := by
    refine BitMatrix.ext_get h.cells_eq h'.cells_eq ?_ ?_ fun i j => ?_
    · rw [h.rows_eq, h'.rows_eq, hnodes]
    · rw [h.cols_eq, h'.cols_eq, hnodes]
    · rw [Bool.eq_iff_iff, h.get_iff, h'.get_iff, hedges, hid, hid]
  cases g
  cases g'
  simp only [Graph.mk.injEq]
  exact ⟨hname, hnodes, hindex, hadjacency, hedges⟩

theorem find?_iff (h : g.WellFormed) : g.find? id = some n ↔ n ∈ g.nodes ∧ n.id = id := by
  rw [find?, Option.bind_eq_some_iff]
  simp only [h.indexOf?_iff, idAt?_eq_some_iff]
  constructor
  · rintro ⟨i, ⟨m, hm, rfl⟩, hn⟩
    obtain rfl : m = n := Option.some.inj (hm.symm.trans hn)
    exact ⟨List.mem_of_getElem? hm, rfl⟩
  · rintro ⟨hn, rfl⟩
    obtain ⟨i, hi⟩ := List.mem_iff_getElem?.1 hn
    exact ⟨i, ⟨n, hi, rfl⟩, hi⟩

theorem find?_of_mem (h : g.WellFormed) (hn : n ∈ g.nodes) : g.find? n.id = some n :=
  h.find?_iff.2 ⟨hn, rfl⟩

theorem exists_find? (h : g.WellFormed) (hid : g.contains id = true) :
    ∃ n ∈ g.nodes, n.id = id ∧ g.find? id = some n := by
  obtain ⟨n, hn, rfl⟩ := List.mem_map.1 (h.contains_iff.1 hid)
  exact ⟨n, hn, rfl, h.find?_of_mem hn⟩

theorem domainOf?_iff (h : g.WellFormed) :
    g.domainOf? id = some d ↔ ∃ n ∈ g.nodes, n.id = id ∧ n.domain = d := by
  simp only [domainOf?, Option.map_eq_some_iff, h.find?_iff, and_assoc]

theorem domainOf?_of_mem (h : g.WellFormed) (hn : n ∈ g.nodes) :
    g.domainOf? n.id = some n.domain :=
  h.domainOf?_iff.2 ⟨n, hn, rfl, rfl⟩

/-- The successors of a node in a well-formed graph can be read off the edges as well. -/
theorem successorsOf_eq (h : g.WellFormed) (id : NodeId) : g.successorsOf id =
    g.nodes.filter fun n => g.edges.any fun e => e.tail == id && e.head == n.id := by
  unfold successorsOf
  split
  next i hi =>
    rw [filter_eq_filterMap_range, BitMatrix.rowOnes, List.filterMap_filter, h.cols_eq]
    apply List.filterMap_congr
    intro j hj
    obtain ⟨n, hn⟩ : ∃ n, g.nodes[j]? = some n := by
      simpa [List.getElem?_eq_some_iff] using hj
    have hbit : g.adjacency.get i j =
        g.edges.any fun e => e.tail == id && e.head == n.id := by
      rw [Bool.eq_iff_iff, h.get_iff, h.indexOf?_iff.1 hi, idAt?_eq_some_iff.2 ⟨n, hn, rfl⟩]
      simp only [List.any_eq_true, Bool.and_eq_true, beq_iff_eq, Option.some.injEq]
      exact exists_congr fun e => and_congr_right fun _ => and_congr eq_comm eq_comm
    rw [hn, hbit, Option.filter_some]
  next hnone =>
    symm
    rw [List.filter_eq_nil_iff]
    intro n _ hany
    obtain ⟨e, he, hends⟩ := List.any_eq_true.1 hany
    simp only [Bool.and_eq_true, beq_iff_eq] at hends
    obtain ⟨i, hi⟩ := contains_iff_exists.1 (h.contains_tail he)
    rw [hends.1, hnone] at hi
    cases hi

theorem mem_successorsOf_iff (h : g.WellFormed) {m : Node} :
    m ∈ g.successorsOf id ↔ m ∈ g.nodes ∧ ∃ e ∈ g.edges, e.tail = id ∧ e.head = m.id := by
  simp only [h.successorsOf_eq, List.mem_filter, List.any_eq_true, Bool.and_eq_true, beq_iff_eq]

theorem mem_ids_successorsOf_iff (h : g.WellFormed) {c : NodeId} :
    id ∈ (g.successorsOf c).map (·.id) ↔ ∃ e ∈ g.edges, e.tail = c ∧ e.head = id := by
  simp only [List.mem_map, h.mem_successorsOf_iff]
  constructor
  · rintro ⟨m, ⟨-, e, he, ht, hh⟩, rfl⟩
    exact ⟨e, he, ht, hh⟩
  · rintro ⟨e, he, ht, rfl⟩
    obtain ⟨m, hm, hid⟩ := List.mem_map.1 (h.head_mem e he)
    exact ⟨m, ⟨hm, e, he, ht, hid.symm⟩, hid⟩

theorem mem_idsIn_successorsOf_iff (h : g.WellFormed) {c : NodeId} :
    id ∈ Node.idsIn d (g.successorsOf c) ↔
      ∃ e ∈ g.edges, e.tail = c ∧ e.head = id ∧ g.domainOf? id = some d := by
  unfold Node.idsIn
  simp only [List.mem_map, List.mem_filter, h.mem_successorsOf_iff, beq_iff_eq, h.domainOf?_iff]
  constructor
  · rintro ⟨n, ⟨⟨hn, e, he, ht, hh⟩, hd⟩, rfl⟩
    exact ⟨e, he, ht, hh, n, hn, rfl, hd⟩
  · rintro ⟨e, he, ht, hh, n, hn, rfl, hd⟩
    exact ⟨n, ⟨⟨hn, e, he, ht, hh⟩, hd⟩, rfl⟩

end WellFormed

/-! ### Well-formed graphs -/

theorem wellFormed_bare (name : Option String) : ({ name } : Graph).WellFormed where
  nodup := List.nodup_nil
  index_iff id i := by simp [SortedMap.get?, SortedMap.findEntry, EmptyCollection.emptyCollection,
    idAt?]
  tail_mem := by simp
  head_mem := by simp
  rows_eq := rfl
  cols_eq := rfl
  cells_eq := BitMatrix.wellFormed_zero
  get_iff i j := by simp
  default_mem := by simp

namespace WellFormed

theorem renamed (h : g.WellFormed) (name : Option String) : { g with name }.WellFormed :=
  { h with }

theorem enter (h : g.WellFormed) (hnew : g.contains n.id = false)
    (hdefault : n.isDefault = true → n.domain = .correspondence) : (g.enter n).WellFormed where
  nodup := by
    have hmem : n.id ∉ g.nodes.map (·.id) := by
      rw [← h.contains_iff, hnew]
      exact Bool.false_ne_true
    rw [nodes_enter, List.map_append]
    exact List.nodup_append.2 ⟨h.nodup, by simp, by grind⟩
  index_iff id i := by
    have hnone : ∀ i, g.idAt? i ≠ some n.id := by
      intro i hi
      have : g.contains n.id = true := contains_iff_exists.2 ⟨i, h.indexOf?_iff.2 hi⟩
      rw [hnew] at this
      cases this
    have hold : g.idAt? g.nodes.length ≠ some id := fun hi => Nat.lt_irrefl _ (lt_of_idAt? hi)
    rw [← indexOf?, idAt?_enter]
    by_cases hid : id = n.id
    · subst hid
      rw [indexOf?_enter_self]
      grind
    · rw [indexOf?_enter_of_ne hid, h.indexOf?_iff]
      grind
  tail_mem e he := by
    rw [nodes_enter, List.map_append]
    exact List.mem_append_left _ (h.tail_mem e he)
  head_mem e he := by
    rw [nodes_enter, List.map_append]
    exact List.mem_append_left _ (h.head_mem e he)
  rows_eq := by simp [Graph.enter, h.rows_eq]
  cols_eq := by simp [Graph.enter, h.cols_eq]
  cells_eq := BitMatrix.wellFormed_grow
  get_iff i j := by
    have hends : ∀ e ∈ g.edges, e.tail ≠ n.id ∧ e.head ≠ n.id := by
      intro e he
      have ht := h.contains_tail he
      have hh := h.contains_head he
      constructor <;> intro heq <;> simp_all
    have hcells : (g.enter n).adjacency.get i j = g.adjacency.get i j := BitMatrix.get_grow
    rw [hcells, h.get_iff i j]
    -- no edge ends at the new node, and the others keep their positions
    have hpos : ∀ k id, id ≠ n.id → ((g.enter n).idAt? k = some id ↔ g.idAt? k = some id) := by
      intro k id hid
      have hlen : g.idAt? g.nodes.length ≠ some id := fun hk => Nat.lt_irrefl _ (lt_of_idAt? hk)
      rw [idAt?_enter]
      grind
    constructor
    · rintro ⟨e, he, hi, hj⟩
      obtain ⟨ht, hh⟩ := hends e he
      exact ⟨e, he, (hpos i _ ht).2 hi, (hpos j _ hh).2 hj⟩
    · rintro ⟨e, he, hi, hj⟩
      obtain ⟨ht, hh⟩ := hends e he
      exact ⟨e, he, (hpos i _ ht).1 hi, (hpos j _ hh).1 hj⟩
  default_mem m hm hm' := by
    rcases List.mem_append.1 hm with hm | hm
    · exact h.default_mem m hm hm'
    · obtain rfl := List.mem_singleton.1 hm
      exact hdefault hm'

theorem enterNew (h : g.WellFormed)
    (hdefault : n.isDefault = true → n.domain = .correspondence) : (g.enterNew n).WellFormed := by
  rw [Graph.enterNew]
  split
  · exact h
  next hnew => exact h.enter (by simpa using hnew) hdefault

theorem join (h : g.WellFormed) : (g.join e).WellFormed := by
  by_cases hends : g.contains e.tail = true ∧ g.contains e.head = true
  · obtain ⟨ht, hh⟩ := hends
    obtain ⟨i₀, hi₀⟩ := contains_iff_exists.1 ht
    obtain ⟨j₀, hj₀⟩ := contains_iff_exists.1 hh
    have hjoin := join_of_indexOf? hi₀ hj₀
    have hmem : ∀ e' ∈ (g.join e).edges, e' ∈ g.edges ∨ e' = e := by
      simp [edges_join ht hh]
    have hti := h.indexOf?_iff.1 hi₀
    have hhj := h.indexOf?_iff.1 hj₀
    have hi : i₀ < g.adjacency.rows := by rw [h.rows_eq]; exact lt_of_idAt? hti
    have hj : j₀ < g.adjacency.cols := by rw [h.cols_eq]; exact lt_of_idAt? hhj
    refine
      { nodup := by simpa using h.nodup
        index_iff := fun id i => by
          rw [← indexOf?, indexOf?_join, idAt?_join, h.indexOf?_iff]
        tail_mem := fun e' he' => ?_
        head_mem := fun e' he' => ?_
        rows_eq := by simpa [hjoin] using h.rows_eq
        cols_eq := by simpa [hjoin] using h.cols_eq
        cells_eq := by simpa [hjoin] using h.cells_eq.set
        get_iff := fun i j => ?_
        default_mem := by simpa using h.default_mem }
    · rw [nodes_join]
      rcases hmem e' he' with he' | rfl
      · exact h.tail_mem e' he'
      · exact h.contains_iff.1 ht
    · rw [nodes_join]
      rcases hmem e' he' with he' | rfl
      · exact h.head_mem e' he'
      · exact h.contains_iff.1 hh
    · simp only [idAt?_join, edges_join ht hh]
      rw [show (g.join e).adjacency = g.adjacency.set i₀ j₀ true by rw [hjoin],
        BitMatrix.get_set h.cells_eq hi hj]
      have hold := h.get_iff i j
      have hrow : g.idAt? i = some e.tail ↔ i = i₀ := by
        rw [← h.indexOf?_iff, hi₀]
        grind
      have hcol : g.idAt? j = some e.head ↔ j = j₀ := by
        rw [← h.indexOf?_iff, hj₀]
        grind
      -- the bit of the new edge is the only one that is written
      split <;> grind
  · rw [join_of_not_contains hends]
    exact h

end WellFormed

end TripleGrammar.Graph
