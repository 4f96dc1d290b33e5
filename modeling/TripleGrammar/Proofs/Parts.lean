import TripleGrammar.Graph.Lemmas
import TripleGrammar.Graph.Part

/-!
# Parts of well-formed graphs

A graph that is made from the elements of a well-formed one is well formed, and its nodes, edges and
name are those that were asked for. Here the records are entered without the checks of a single
change, so each construction has to see to it that they hold.
-/

namespace TripleGrammar.Graph

variable {g h : Graph} {n : Node} {e : Edge} {id : NodeId} {d : Domain}

/-- A well-formed graph whose nodes are nodes of `g`. -/
structure IsPart (g h : Graph) : Prop where
  wellFormed : h.WellFormed
  mem : ∀ n ∈ h.nodes, n ∈ g.nodes

lemma isPart_bare (g : Graph) (name : Option String) : g.IsPart { name } :=
  ⟨wellFormed_bare name, by simp⟩

namespace IsPart

lemma enterNew (hg : g.WellFormed) (hh : g.IsPart h) (hn : n ∈ g.nodes) :
    g.IsPart (h.enterNew n) := by
  refine ⟨hh.wellFormed.enterNew (hg.default_mem n hn), ?_⟩
  intro m hm
  unfold Graph.enterNew at hm
  split at hm
  · exact hh.mem m hm
  · rcases List.mem_append.mp hm with hm | hm
    · exact hh.mem m hm
    · obtain rfl := List.mem_singleton.mp hm
      exact hn

lemma enterFrom (hg : g.WellFormed) (hh : g.IsPart h) (id : NodeId) :
    g.IsPart (g.enterFrom h id) := by
  unfold Graph.enterFrom
  split
  next n hn => exact hh.enterNew hg (hg.find?_iff.mp hn).1
  next => exact hh

lemma joinFrom (hg : g.WellFormed) (hh : g.IsPart h) (e : Edge) : g.IsPart (g.joinFrom h e) := by
  have hends := (hh.enterFrom hg e.tail).enterFrom hg e.head
  refine ⟨hends.wellFormed.join, ?_⟩
  intro m hm
  unfold Graph.joinFrom at hm
  rw [nodes_join] at hm
  exact hends.mem m hm

lemma find?_eq (hg : g.WellFormed) (hh : g.IsPart h) (hid : h.contains id = true) :
    h.find? id = g.find? id := by
  obtain ⟨n, hn, rfl, hfind⟩ := hh.wellFormed.exists_find? hid
  rw [hfind, hg.find?_of_mem (hh.mem n hn)]

lemma mem_nodes_iff (hg : g.WellFormed) (hh : g.IsPart h) :
    n ∈ h.nodes ↔ n ∈ g.nodes ∧ h.contains n.id = true := by
  refine ⟨fun hn => ⟨hh.mem n hn, hh.wellFormed.contains_of_mem hn⟩, ?_⟩
  rintro ⟨hn, hid⟩
  obtain ⟨m, hm, hmid, -⟩ := hh.wellFormed.exists_find? hid
  rwa [← hg.eq_of_id_eq (hh.mem m hm) hn hmid]

lemma edgeInside_eq (hg : g.WellFormed) (hh : g.IsPart h) (he : e ∈ h.edges) (d : Domain) :
    h.edgeInside d e = g.edgeInside d e := by
  unfold edgeInside domainOf?
  rw [hh.find?_eq hg (hh.wellFormed.contains_tail he),
    hh.find?_eq hg (hh.wellFormed.contains_head he)]

end IsPart

/-! ### Edges with their ends -/

lemma contains_enterFrom (hg : g.WellFormed) (hid : g.contains id = true) (x : NodeId) :
    (g.enterFrom h id).contains x = (x == id || h.contains x) := by
  obtain ⟨n, -, rfl, hfind⟩ := hg.exists_find? hid
  unfold enterFrom
  rw [hfind]
  exact contains_enterNew

lemma edges_enterFrom : (g.enterFrom h id).edges = h.edges := by
  unfold enterFrom
  split
  · exact edges_enterNew
  · rfl

lemma contains_joinFrom (hg : g.WellFormed) (ht : g.contains e.tail = true)
    (hh : g.contains e.head = true) (x : NodeId) :
    (g.joinFrom h e).contains x = (x == e.head || (x == e.tail || h.contains x)) := by
  unfold joinFrom
  rw [contains_join, contains_enterFrom hg hh, contains_enterFrom hg ht]

lemma edges_joinFrom (hg : g.WellFormed) (ht : g.contains e.tail = true)
    (hh : g.contains e.head = true) : (g.joinFrom h e).edges = h.edges ++ [e] := by
  unfold joinFrom
  rw [edges_join, edges_enterFrom, edges_enterFrom]
  · simp [contains_enterFrom hg hh, contains_enterFrom hg ht]
  · simp [contains_enterFrom hg hh]

/-- The ends of all these edges are nodes of `g`. -/
def Bounds (g : Graph) (edges : List Edge) : Prop :=
  ∀ e ∈ edges, g.contains e.tail = true ∧ g.contains e.head = true

lemma WellFormed.bounds (hg : g.WellFormed) {edges : List Edge} (hedges : edges ⊆ g.edges) :
    g.Bounds edges :=
  fun _ he => ⟨hg.contains_tail (hedges he), hg.contains_head (hedges he)⟩

section

variable {edges : List Edge}

lemma IsPart.foldl_joinFrom (hg : g.WellFormed) (edges : List Edge) (hh : g.IsPart h) :
    g.IsPart (edges.foldl g.joinFrom h) := by
  induction edges generalizing h with
  | nil => exact hh
  | cons e edges ih => exact ih (hh.joinFrom hg e)

lemma edges_foldl_joinFrom (hg : g.WellFormed) (hedges : g.Bounds edges) :
    (edges.foldl g.joinFrom h).edges = h.edges ++ edges := by
  induction edges generalizing h with
  | nil => simp
  | cons e edges ih =>
    obtain ⟨ht, hh⟩ := hedges e List.mem_cons_self
    rw [List.foldl_cons, ih fun e' he' => hedges e' (List.mem_cons_of_mem _ he'),
      edges_joinFrom hg ht hh, List.append_assoc, List.singleton_append]

lemma contains_foldl_joinFrom (hg : g.WellFormed) (hedges : g.Bounds edges) (x : NodeId) :
    (edges.foldl g.joinFrom h).contains x = true ↔
      h.contains x = true ∨ ∃ e ∈ edges, x = e.tail ∨ x = e.head := by
  induction edges generalizing h with
  | nil => simp
  | cons e edges ih =>
    obtain ⟨ht, hh⟩ := hedges e List.mem_cons_self
    rw [List.foldl_cons, ih fun e' he' => hedges e' (List.mem_cons_of_mem _ he'),
      contains_joinFrom hg ht hh]
    simp only [Bool.or_eq_true, beq_iff_eq, List.mem_cons, exists_eq_or_imp]
    constructor
    · rintro ((hx | hx | hx) | hx)
      · exact Or.inr (Or.inl (Or.inr hx))
      · exact Or.inr (Or.inl (Or.inl hx))
      · exact Or.inl hx
      · exact Or.inr (Or.inr hx)
    · rintro (hx | (hx | hx) | hx)
      · exact Or.inl (Or.inr (Or.inr hx))
      · exact Or.inl (Or.inr (Or.inl hx))
      · exact Or.inl (Or.inl hx)
      · exact Or.inr hx

theorem isPart_partOf (hg : g.WellFormed) (edges : List Edge) (name : Option String) :
    g.IsPart (g.partOf edges name) :=
  (isPart_bare g name).foldl_joinFrom hg edges

lemma edges_partOf (hg : g.WellFormed) (hedges : g.Bounds edges) (name : Option String) :
    (g.partOf edges name).edges = edges :=
  edges_foldl_joinFrom hg hedges

lemma contains_partOf (hg : g.WellFormed) (hedges : g.Bounds edges) (name : Option String)
    (x : NodeId) :
    (g.partOf edges name).contains x = true ↔ ∃ e ∈ edges, x = e.tail ∨ x = e.head := by
  unfold partOf
  rw [contains_foldl_joinFrom hg hedges]
  have hbare : ({ name } : Graph).contains x = false := rfl
  simp [hbare]

end

/-! ### Further nodes -/

section

variable {nodes : List Node}

lemma IsPart.foldl_enterNew (hg : g.WellFormed) (hnodes : ∀ n ∈ nodes, n ∈ g.nodes)
    (hh : g.IsPart h) : g.IsPart (nodes.foldl Graph.enterNew h) := by
  induction nodes generalizing h with
  | nil => exact hh
  | cons n nodes ih =>
    exact ih (fun m hm => hnodes m (List.mem_cons_of_mem _ hm))
      (hh.enterNew hg (hnodes n List.mem_cons_self))

lemma edges_foldl_enterNew : (nodes.foldl Graph.enterNew h).edges = h.edges := by
  induction nodes generalizing h with
  | nil => rfl
  | cons n nodes ih => rw [List.foldl_cons, ih, edges_enterNew]

lemma contains_foldl {f : Graph → Node → Graph}
    (hf : ∀ h n x, (f h n).contains x = (x == n.id || h.contains x)) (x : NodeId) :
    (nodes.foldl f h).contains x = true ↔ h.contains x = true ∨ ∃ n ∈ nodes, n.id = x := by
  induction nodes generalizing h with
  | nil => simp
  | cons n nodes ih =>
    rw [List.foldl_cons, ih, hf]
    simp only [Bool.or_eq_true, beq_iff_eq, List.mem_cons, exists_eq_or_imp]
    constructor
    · rintro ((hx | hx) | hx)
      · exact Or.inr (Or.inl hx.symm)
      · exact Or.inl hx
      · exact Or.inr (Or.inr hx)
    · rintro (hx | hx | hx)
      · exact Or.inl (Or.inr hx)
      · exact Or.inl (Or.inl hx.symm)
      · exact Or.inr hx

lemma contains_foldl_enterNew (x : NodeId) : (nodes.foldl Graph.enterNew h).contains x = true ↔
    h.contains x = true ∨ ∃ n ∈ nodes, n.id = x :=
  contains_foldl (fun _ _ _ => contains_enterNew) x

lemma contains_foldl_enter (x : NodeId) : (nodes.foldl Graph.enter h).contains x = true ↔
    h.contains x = true ∨ ∃ n ∈ nodes, n.id = x :=
  contains_foldl (fun _ _ _ => contains_enter) x

/-- New nodes with different ids stay new when the first of them is entered. -/
lemma contains_enter_eq_false {n : Node} (hnodup : ((n :: nodes).map (·.id)).Nodup)
    (hnew : ∀ m ∈ n :: nodes, h.contains m.id = false) :
    ∀ m ∈ nodes, (h.enter n).contains m.id = false := by
  intro m hm
  have hne : m.id ≠ n.id := (nodup_ids_cons hnodup).1 m hm
  rw [contains_enter, hnew m (List.mem_cons_of_mem _ hm)]
  simp [hne]

/-- New nodes with different ids can be entered one after the other. -/
lemma WellFormed.foldl_enter (hh : h.WellFormed) (hnodup : (nodes.map (·.id)).Nodup)
    (hnew : ∀ n ∈ nodes, h.contains n.id = false)
    (hdefault : ∀ n ∈ nodes, n.isDefault = true → n.domain = .correspondence) :
    (nodes.foldl Graph.enter h).WellFormed := by
  induction nodes generalizing h with
  | nil => exact hh
  | cons n nodes ih =>
    apply ih (hh.enter (hnew n List.mem_cons_self) (hdefault n List.mem_cons_self))
    · exact (nodup_ids_cons hnodup).2
    · exact contains_enter_eq_false hnodup hnew
    · exact fun m hm => hdefault m (List.mem_cons_of_mem _ hm)

lemma nodes_foldl_enter : (nodes.foldl Graph.enter h).nodes = h.nodes ++ nodes := by
  induction nodes generalizing h with
  | nil => simp
  | cons n nodes ih =>
    rw [List.foldl_cons, ih, nodes_enter, List.append_assoc, List.singleton_append]

lemma edges_foldl_enter : (nodes.foldl Graph.enter h).edges = h.edges := by
  induction nodes generalizing h with
  | nil => rfl
  | cons n nodes ih => rw [List.foldl_cons, ih, edges_enter]

lemma name_foldl_enter : (nodes.foldl Graph.enter h).name = h.name := by
  induction nodes generalizing h with
  | nil => rfl
  | cons n nodes ih => rw [List.foldl_cons, ih, name_enter]

end

section

variable {edges : List Edge}

lemma nodes_foldl_join : (edges.foldl join h).nodes = h.nodes := by
  induction edges generalizing h with
  | nil => rfl
  | cons e edges ih => rw [List.foldl_cons, ih, nodes_join]

lemma name_foldl_join : (edges.foldl join h).name = h.name := by
  induction edges generalizing h with
  | nil => rfl
  | cons e edges ih => rw [List.foldl_cons, ih, name_join]

lemma contains_foldl_join : (edges.foldl join h).contains id = h.contains id := by
  induction edges generalizing h with
  | nil => rfl
  | cons e edges ih => rw [List.foldl_cons, ih, contains_join]

lemma edges_foldl_join (hedges : h.Bounds edges) :
    (edges.foldl join h).edges = h.edges ++ edges := by
  induction edges generalizing h with
  | nil => simp
  | cons e edges ih =>
    obtain ⟨ht, hh⟩ := hedges e List.mem_cons_self
    have hrest : (h.join e).Bounds edges := by
      intro e' he'
      rw [contains_join, contains_join]
      exact hedges e' (List.mem_cons_of_mem _ he')
    rw [List.foldl_cons, ih hrest, edges_join ht hh, List.append_assoc, List.singleton_append]

end

lemma WellFormed.foldl_join {α : Type} (f : α → Edge) (l : List α) (hh : h.WellFormed) :
    (l.foldl (fun h a => h.join (f a)) h).WellFormed := by
  induction l generalizing h with
  | nil => exact hh
  | cons a l ih => exact ih hh.join

/-! ### The parts of a graph -/

theorem WellFormed.reverse (hg : g.WellFormed) : g.reverse.WellFormed := by
  unfold Graph.reverse
  apply WellFormed.foldl_join
  exact (wellFormed_bare g.name).foldl_enter hg.nodup (fun _ _ => rfl) hg.default_mem

lemma nodes_reverse (g : Graph) : g.reverse.nodes = g.nodes := by
  unfold reverse
  rw [← List.foldl_map, nodes_foldl_join, nodes_foldl_enter, List.nil_append]

lemma edges_reverse (hg : g.WellFormed) : g.reverse.edges = g.edges.map Edge.reversed := by
  have hends : (g.nodes.foldl enter { name := g.name }).Bounds (g.edges.map Edge.reversed) := by
    intro e' he'
    obtain ⟨e, he, rfl⟩ := List.mem_map.mp he'
    simp only [contains_foldl_enter]
    exact ⟨Or.inr (List.mem_map.mp (hg.head_mem e he)),
      Or.inr (List.mem_map.mp (hg.tail_mem e he))⟩
  unfold reverse
  rw [← List.foldl_map, edges_foldl_join hends, edges_foldl_enter, List.nil_append]

lemma name_reverse (g : Graph) : g.reverse.name = g.name := by
  unfold reverse
  rw [← List.foldl_map, name_foldl_join, name_foldl_enter]

lemma isPart_reverse (hg : g.WellFormed) : g.IsPart g.reverse :=
  ⟨hg.reverse, fun n hn => by rwa [nodes_reverse] at hn⟩

lemma nodesIn_subset (g : Graph) (d : Domain) : ∀ n ∈ g.nodesIn d, n ∈ g.nodes :=
  fun _ hn => (List.mem_filter.mp hn).1

theorem isPart_project (hg : g.WellFormed) (d : Domain) : g.IsPart (g.project d) :=
  (isPart_partOf hg _ _).foldl_enterNew hg (nodesIn_subset g d)

lemma edges_project (hg : g.WellFormed) (d : Domain) :
    (g.project d).edges = g.edges.filter (g.edgeInside d) := by
  unfold project
  rw [edges_foldl_enterNew, edges_partOf hg (hg.bounds fun _ he => List.mem_of_mem_filter he)]

lemma mem_nodes_project_iff (hg : g.WellFormed) :
    n ∈ (g.project d).nodes ↔ n ∈ g.nodes ∧ n.domain = d := by
  rw [(isPart_project hg d).mem_nodes_iff hg]
  refine and_congr_right fun hn => ?_
  have hdomain : g.domainOf? n.id = some n.domain := hg.domainOf?_of_mem hn
  unfold project
  rw [contains_foldl_enterNew, contains_partOf hg (hg.bounds fun _ he => List.mem_of_mem_filter he)]
  constructor
  · rintro (⟨e, he, hend⟩ | ⟨m, hm, hid⟩)
    · have hinside : g.edgeInside d e = true := (List.mem_filter.mp he).2
      unfold edgeInside at hinside
      simp only [Bool.and_eq_true, beq_iff_eq] at hinside
      rcases hend with hend | hend
      · exact Option.some.inj (hdomain.symm.trans (hend ▸ hinside.1))
      · exact Option.some.inj (hdomain.symm.trans (hend ▸ hinside.2))
    · obtain ⟨hmg, hm⟩ := List.mem_filter.mp hm
      rw [← hg.eq_of_id_eq hmg hn hid]
      exact eq_of_beq hm
  · intro hd
    exact Or.inr ⟨n, List.mem_filter.mpr ⟨hn, by simp [hd]⟩, rfl⟩

/-- A graph that lies in one domain is all projected to it. -/
lemma perm_nodes_project (hg : g.WellFormed) (hplain : ∀ n ∈ g.nodes, n.domain = d) :
    (g.project d).nodes.Perm g.nodes := by
  apply (List.perm_ext_iff_of_nodup (isPart_project hg d).wellFormed.nodup.of_map
    hg.nodup.of_map).mpr
  intro n
  rw [mem_nodes_project_iff hg]
  exact and_iff_left_of_imp (hplain n)

lemma foldl_insert_eq (l es : List Edge) :
    l.foldl (fun es e => if es.contains e then es else es ++ [e]) es =
      es ++ (l.filter fun e => !es.contains e).eraseDups := by
  induction l generalizing es with
  | nil => simp
  | cons e l ih =>
    rw [List.foldl_cons, ih]
    by_cases hold : es.contains e = true
    · rw [if_pos hold, List.filter_cons_of_neg (by simpa using hold)]
    · have hrest : (l.filter fun e' => !(es ++ [e]).contains e') =
          (l.filter fun e' => !es.contains e').filter fun e' => !e' == e := by
        rw [List.filter_filter]
        refine List.filter_congr fun e' _ => ?_
        simp [beq_eq_decide, Bool.and_comm]
      rw [if_neg hold, List.filter_cons_of_pos (by simpa using hold), List.eraseDups_cons, hrest,
        List.append_assoc, List.singleton_append]

/-- The preserved edges as often as they are there, and each further edge inside the domain where it
comes first. -/
lemma contextEdges_eq (g : Graph) (d : Domain) : g.contextEdges d =
    g.edges.filter (·.hasAction .preserve) ++
      (g.edges.filter fun e => g.edgeInside d e && !e.hasAction .preserve).eraseDups := by
  unfold contextEdges
  rw [foldl_insert_eq, List.filter_filter]
  refine congrArg (fun l => _ ++ List.eraseDups l) (List.filter_congr fun e he => ?_)
  have hpreserved : (g.edges.filter (·.hasAction .preserve)).contains e = e.hasAction .preserve := by
    rw [Bool.eq_iff_iff, List.contains_iff_mem, List.mem_filter]
    exact and_iff_right he
  rw [hpreserved, Bool.and_comm]

lemma mem_contextEdges_iff : e ∈ g.contextEdges d ↔
    e ∈ g.edges ∧ (e.hasAction .preserve = true ∨ g.edgeInside d e = true) := by
  rw [contextEdges_eq, List.mem_append, List.mem_eraseDups, List.mem_filter, List.mem_filter,
    ← and_or_left]
  cases e.hasAction .preserve <;> simp

lemma contextEdges_subset (g : Graph) (d : Domain) : g.contextEdges d ⊆ g.edges :=
  fun _ he => (mem_contextEdges_iff.mp he).1

theorem isPart_context (hg : g.WellFormed) (d : Domain) : g.IsPart (g.context d) :=
  (isPart_partOf hg _ _).foldl_enterNew hg fun _ hn => (List.mem_filter.mp hn).1

lemma edges_context (hg : g.WellFormed) (d : Domain) :
    (g.context d).edges = g.contextEdges d := by
  unfold context
  rw [edges_foldl_enterNew, edges_partOf hg (hg.bounds (contextEdges_subset g d))]

lemma context_contains (hn : n ∈ g.nodes)
    (h : n.domain = d ∨ n.hasAction .preserve = true) : (g.context d).contains n.id = true := by
  unfold context
  rw [contains_foldl_enterNew]
  refine Or.inr ⟨n, List.mem_filter.mpr ⟨hn, ?_⟩, rfl⟩
  rcases h with h | h <;> simp [h]

theorem isPart_creator (hg : g.WellFormed) : g.IsPart g.creator := isPart_partOf hg _ _

lemma edges_creator (hg : g.WellFormed) :
    g.creator.edges = g.edges.filter (·.hasAction .create) :=
  edges_partOf hg (hg.bounds (List.filter_subset_self _)) _

end TripleGrammar.Graph
