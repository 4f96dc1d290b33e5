import TripleGrammar.Proofs.Links
import TripleGrammar.Proofs.Signatures

/-!
# Copies of a graph with other ids

A copy has the nodes and edges of a graph in the same order, with other ids in place of its own.
Positions, labels and adjacency are those of the graph, so is what is looked up by ids up to the
change of these, and a search for a match finds what it finds in the graph. The ids are compared
with each other in many places, but their order never decides anything.
-/

namespace TripleGrammar

def Node.mapId (τ : NodeId → NodeId) (n : Node) : Node := { n with id := τ n.id }

def Edge.mapIds (τ : NodeId → NodeId) (e : Edge) : Edge :=
  { e with tail := τ e.tail, head := τ e.head }

namespace Graph

variable {g h pattern rule : Graph} {τ ρ : NodeId → NodeId} {d : Domain} {id : NodeId}

/-- `h` has the nodes and edges of `g` in the same order, each id replaced by its image. -/
structure Copies (h g : Graph) (τ : NodeId → NodeId) : Prop where
  name : h.name = g.name
  nodes : h.nodes = g.nodes.map (·.mapId τ)
  edges : h.edges = g.edges.map (·.mapIds τ)

namespace Copies

lemma ids (hc : h.Copies g τ) : h.nodes.map (·.id) = (g.nodes.map (·.id)).map τ := by
  rw [hc.nodes, List.map_map, List.map_map]
  rfl

lemma inj (hc : h.Copies g τ) (hg : g.WellFormed) (hh : h.WellFormed) {a b : NodeId}
    (ha : g.contains a = true) (hb : g.contains b = true) : τ a = τ b ↔ a = b := by
  have hnodup := hh.nodup
  rw [hc.ids] at hnodup
  exact ⟨List.inj_on_of_nodup_map hnodup (hg.contains_iff.mp ha) (hg.contains_iff.mp hb),
    congrArg τ⟩

lemma mem_nodes (hc : h.Copies g τ) {n : Node} (hn : n ∈ g.nodes) : n.mapId τ ∈ h.nodes := by
  rw [hc.nodes]
  exact List.mem_map_of_mem hn

lemma mem_edges (hc : h.Copies g τ) {e : Edge} (he : e ∈ g.edges) : e.mapIds τ ∈ h.edges := by
  rw [hc.edges]
  exact List.mem_map_of_mem he

lemma exists_node (hc : h.Copies g τ) {m : Node} (hm : m ∈ h.nodes) :
    ∃ n ∈ g.nodes, n.mapId τ = m := by
  rw [hc.nodes] at hm
  exact List.mem_map.mp hm

lemma exists_edge (hc : h.Copies g τ) {e' : Edge} (he' : e' ∈ h.edges) :
    ∃ e ∈ g.edges, e.mapIds τ = e' := by
  rw [hc.edges] at he'
  exact List.mem_map.mp he'

/-- Only what is done to the ids of the graph matters. -/
lemma congr (hc : h.Copies g τ) (hg : g.WellFormed) (hρ : ∀ n ∈ g.nodes, ρ n.id = τ n.id) :
    h.Copies g ρ := by
  have hids : ∀ id ∈ g.nodes.map (·.id), ρ id = τ id := by
    intro id hid
    obtain ⟨n, hn, rfl⟩ := List.mem_map.mp hid
    exact hρ n hn
  refine ⟨hc.name, hc.nodes.trans (List.map_congr_left fun n hn => ?_),
    hc.edges.trans (List.map_congr_left fun e he => ?_)⟩
  · unfold Node.mapId
    rw [hρ n hn]
  · unfold Edge.mapIds
    rw [hids _ (hg.tail_mem e he), hids _ (hg.head_mem e he)]

/-- The graph is a copy of its copy. -/
lemma symm (hc : h.Copies g τ) (hg : g.WellFormed) (hh : h.WellFormed) :
    ∃ ρ, g.Copies h ρ ∧ ∀ id, g.contains id = true → ρ (τ id) = id := by
  have : Nonempty NodeId := ⟨⟨0⟩⟩
  have hinj : Set.InjOn τ {id | g.contains id = true} := fun a ha b hb => (hc.inj hg hh ha hb).mp
  let ρ := Function.invFunOn τ {id | g.contains id = true}
  have hback : ∀ id, g.contains id = true → ρ (τ id) = id :=
    fun id hid => hinj.leftInvOn_invFunOn hid
  refine ⟨ρ, ⟨hc.name.symm, ?_, ?_⟩, hback⟩
  · rw [hc.nodes, List.map_map]
    conv_lhs => rw [← List.map_id g.nodes]
    apply List.map_congr_left
    intro n hn
    unfold Node.mapId
    simp [hback _ (hg.contains_of_mem hn)]
  · rw [hc.edges, List.map_map]
    conv_lhs => rw [← List.map_id g.edges]
    apply List.map_congr_left
    intro e he
    unfold Edge.mapIds
    simp [hback _ (hg.contains_tail he), hback _ (hg.contains_head he)]

/-! ### Looking up -/

lemma contains (hc : h.Copies g τ) (hg : g.WellFormed) (hh : h.WellFormed)
    (hid : g.contains id = true) : h.contains (τ id) = true := by
  rw [hh.contains_iff, hc.ids]
  exact List.mem_map_of_mem (hg.contains_iff.mp hid)

lemma find?_eq (hc : h.Copies g τ) (hg : g.WellFormed) (hh : h.WellFormed)
    (hid : g.contains id = true) : h.find? (τ id) = (g.find? id).map (·.mapId τ) := by
  obtain ⟨n, hn, rfl, hfind⟩ := hg.exists_find? hid
  rw [hfind]
  exact hh.find?_of_mem (hc.mem_nodes hn)

lemma domainOf?_eq (hc : h.Copies g τ) (hg : g.WellFormed) (hh : h.WellFormed)
    (hid : g.contains id = true) : h.domainOf? (τ id) = g.domainOf? id := by
  unfold domainOf?
  rw [hc.find?_eq hg hh hid, Option.map_map]
  rfl

lemma getElem?_nodes (hc : h.Copies g τ) (i : Nat) :
    h.nodes[i]? = g.nodes[i]?.map (·.mapId τ) := by
  rw [hc.nodes, List.getElem?_map]

lemma idAt?_eq (hc : h.Copies g τ) (i : Nat) : h.idAt? i = (g.idAt? i).map τ := by
  unfold idAt?
  rw [hc.getElem?_nodes, Option.map_map, Option.map_map]
  rfl

lemma length_nodes (hc : h.Copies g τ) : h.nodes.length = g.nodes.length := by
  rw [hc.nodes, List.length_map]

lemma get_adjacency (hc : h.Copies g τ) (hg : g.WellFormed) (hh : h.WellFormed) (i j : Nat) :
    h.adjacency.get i j = g.adjacency.get i j := by
  have hat : ∀ {i : Nat} {id : NodeId}, g.contains id = true →
      (h.idAt? i = some (τ id) ↔ g.idAt? i = some id) := by
    intro i id hid
    rw [hc.idAt?_eq, Option.map_eq_some_iff]
    constructor
    · rintro ⟨a, ha, heq⟩
      have hmem := hg.contains_iff.mpr (exists_idAt?_iff.mp ⟨i, ha⟩)
      rw [← (hc.inj hg hh hmem hid).mp heq]
      exact ha
    · exact fun ha => ⟨id, ha, rfl⟩
  rw [Bool.eq_iff_iff, hg.get_iff, hh.get_iff]
  constructor
  · rintro ⟨e', he', ht, hd⟩
    obtain ⟨e, he, rfl⟩ := hc.exists_edge he'
    exact ⟨e, he, (hat (hg.contains_tail he)).mp ht, (hat (hg.contains_head he)).mp hd⟩
  · rintro ⟨e, he, ht, hd⟩
    exact ⟨e.mapIds τ, hc.mem_edges he, (hat (hg.contains_tail he)).mpr ht,
      (hat (hg.contains_head he)).mpr hd⟩

lemma adjacency_eq (hc : h.Copies g τ) (hg : g.WellFormed) (hh : h.WellFormed) :
    h.adjacency = g.adjacency := by
  apply BitMatrix.ext_get hh.cells_eq hg.cells_eq
  · rw [hh.rows_eq, hg.rows_eq, hc.length_nodes]
  · rw [hh.cols_eq, hg.cols_eq, hc.length_nodes]
  · exact hc.get_adjacency hg hh

/-! ### What does not depend on ids -/

lemma renames (hc : h.Copies g τ) (hh : h.WellFormed) : h.Renames g τ := by
  refine renames_of_perm hh ?_ ?_
  · rw [hc.nodes, List.map_map]
    exact .refl _
  · rw [hc.edges, List.map_map]
    exact .refl _

lemma isIsomorphicTo (hc : h.Copies g τ) (hg : g.WellFormed) (hh : h.WellFormed) :
    g.isIsomorphicTo h = true :=
  (isIsomorphicTo_iff hg hh).mpr ((hc.renames hh).symm hh hg)

lemma signature_eq (hc : h.Copies g τ) (hg : g.WellFormed) (hh : h.WellFormed) :
    h.signature = g.signature :=
  (hc.renames hh).signature_eq hh hg

/-! ### Links -/

lemma joins (hc : h.Copies g τ) (hg : g.WellFormed) (hh : h.WellFormed) {c : NodeId}
    {ids : List NodeId} (hcmem : g.contains c = true) (hjoins : g.Joins d c ids) :
    h.Joins d (τ c) (ids.map τ) := by
  intro id'
  rw [List.mem_map]
  constructor
  · rintro ⟨e', he', ht, rfl, hd⟩
    obtain ⟨e, he, rfl⟩ := hc.exists_edge he'
    refine ⟨e.head, (hjoins e.head).mp ⟨e, he, ?_, rfl, ?_⟩, rfl⟩
    · exact (hc.inj hg hh (hg.contains_tail he) hcmem).mp ht
    · rw [← hc.domainOf?_eq hg hh (hg.contains_head he)]
      exact hd
  · rintro ⟨id, hid, rfl⟩
    obtain ⟨e, he, rfl, rfl, hd⟩ := (hjoins id).mpr hid
    refine ⟨e.mapIds τ, hc.mem_edges he, rfl, rfl, ?_⟩
    rw [hc.domainOf?_eq hg hh (hg.contains_head he)]
    exact hd

lemma repeatsLinks_of (hc : h.Copies g τ) (hg : g.WellFormed) (hh : h.WellFormed)
    {kinds : List String} {ids : List NodeId}
    (hrepeats : repeatsLinks (g.links d) kinds ids = true) :
    repeatsLinks (h.links d) kinds (ids.map τ) = true := by
  rw [repeatsLinks_iff hg] at hrepeats
  rw [repeatsLinks_iff hh]
  refine ⟨hrepeats.1, fun k hk => ?_⟩
  obtain ⟨c, hcmem, hcd, hck, hjoins⟩ := hrepeats.2 k hk
  exact ⟨c.mapId τ, hc.mem_nodes hcmem, hcd, hck,
    hc.joins hg hh (hg.contains_of_mem hcmem) hjoins⟩

lemma repeatsLinks_eq (hc : h.Copies g τ) (hg : g.WellFormed) (hh : h.WellFormed)
    {kinds : List String} {ids : List NodeId} (hids : ∀ id ∈ ids, g.contains id = true) :
    repeatsLinks (h.links d) kinds (ids.map τ) = repeatsLinks (g.links d) kinds ids := by
  obtain ⟨ρ, hback, hρ⟩ := hc.symm hg hh
  have hsame : (ids.map τ).map ρ = ids := by
    rw [List.map_map]
    conv_rhs => rw [← List.map_id ids]
    exact List.map_congr_left fun id hid => hρ id (hids id hid)
  rw [Bool.eq_iff_iff]
  refine ⟨fun hrepeats => ?_, hc.repeatsLinks_of hg hh⟩
  rw [← hsame]
  exact hback.repeatsLinks_of hh hg hrepeats

/-! ### Matches -/

/-- A match binds the same nodes of a rule in the graph and in the copy. -/
lemma get?_matchOf (hc : h.Copies g τ) (m : BitMatrix) (k : NodeId) :
    (h.matchOf pattern m).get? k = ((g.matchOf pattern m).get? k).map τ := by
  unfold matchOf
  revert k
  refine List.foldl_rel (r := fun found' found : Match => ∀ k, found'.get? k = (found.get? k).map τ)
    (fun _ => rfl) fun x _ found' found hfound k => ?_
  dsimp only
  rw [hc.getElem?_nodes]
  cases pattern.nodes[x.1]? with
  | none => exact hfound k
  | some p =>
    cases g.nodes[x.2]? with
    | none => exact hfound k
    | some n =>
      dsimp only [Option.map_some]
      by_cases hk : k = p.id
      · subst hk
        rw [SortedMap.get?_insert_self, SortedMap.get?_insert_self]
        rfl
      · rw [SortedMap.get?_insert_of_ne _ _ hk, SortedMap.get?_insert_of_ne _ _ hk, hfound]

lemma labelsAgree_eq (hc : h.Copies g τ) : h.labelsAgree pattern = g.labelsAgree pattern := by
  funext i j
  unfold labelsAgree
  rw [hc.getElem?_nodes]
  cases pattern.nodes[i]? <;> cases g.nodes[j]? <;> rfl

/-- The nodes of a domain that are bound in the copy are the images of those bound in the graph. -/
lemma mem_boundIn_iff (hc : h.Copies g τ) (hg : g.WellFormed) (hh : h.WellFormed)
    {found found' : Match} (hmem : ∀ k id, found.get? k = some id → g.contains id = true)
    (hfound : ∀ k, found'.get? k = (found.get? k).map τ) (id' : NodeId) :
    id' ∈ h.boundIn d found' ↔ id' ∈ (g.boundIn d found).map τ := by
  unfold boundIn Node.idsIn
  simp only [List.mem_map, List.mem_filter, List.mem_filterMap, Match.mem_image_iff, beq_iff_eq,
    hfound, Option.map_eq_some_iff]
  constructor
  · rintro ⟨_, ⟨⟨_, ⟨k, id, hk, rfl⟩, hfind⟩, hd⟩, rfl⟩
    rw [hc.find?_eq hg hh (hmem k id hk), Option.map_eq_some_iff] at hfind
    obtain ⟨n, hn, rfl⟩ := hfind
    exact ⟨n.id, ⟨n, ⟨⟨id, ⟨k, hk⟩, hn⟩, hd⟩, rfl⟩, rfl⟩
  · rintro ⟨_, ⟨n, ⟨⟨id, ⟨k, hk⟩, hn⟩, hd⟩, rfl⟩, rfl⟩
    refine ⟨n.mapId τ, ⟨⟨τ id, ⟨k, id, hk, rfl⟩, ?_⟩, hd⟩, rfl⟩
    rw [hc.find?_eq hg hh (hmem k id hk), hn]
    rfl

lemma contains_of_get?_matchOf (hg : g.WellFormed) {m : BitMatrix} {k : NodeId}
    (hk : (g.matchOf pattern m).get? k = some id) : g.contains id = true := by
  rw [matchOf_eq] at hk
  obtain ⟨⟨i, j⟩, -, hentry⟩ := List.mem_filterMap.mp (SortedMap.mem_of_get?_ofList hk)
  obtain ⟨a, -, hpair⟩ := Option.bind_eq_some_iff.mp hentry
  obtain ⟨b, hb, heq⟩ := Option.map_eq_some_iff.mp hpair
  rw [← (Prod.mk.inj heq).2]
  exact hg.contains_iff.mpr (exists_idAt?_iff.mp ⟨j, hb⟩)

lemma repeatsAt_eq (hc : h.Copies g τ) (hg : g.WellFormed) (hh : h.WellFormed)
    (kinds : List String) (m : BitMatrix) :
    h.repeatsAt pattern (h.links d) kinds d m = g.repeatsAt pattern (g.links d) kinds d m := by
  have hmem : ∀ id ∈ g.boundIn d (g.matchOf pattern m), g.contains id = true := by
    intro id hid
    obtain ⟨n, hn, rfl⟩ := List.mem_map.mp hid
    obtain ⟨id, -, hfind⟩ := List.mem_filterMap.mp (List.mem_filter.mp hn).1
    exact hg.contains_of_mem (hg.find?_iff.mp hfind).1
  unfold repeatsAt
  rw [← hc.repeatsLinks_eq hg hh hmem]
  exact repeatsLinks_congr _ (hc.mem_boundIn_iff hg hh
    (fun k id hk => contains_of_get?_matchOf hg hk) (hc.get?_matchOf m))

/-- A search comes to the same match in the graph and in the copy, whatever the strategy. -/
theorem get?_searchMatch (hc : h.Copies g τ) (hg : g.WellFormed) (hh : h.WellFormed)
    (rule : Graph) (d : Domain) (S : Strategy) (k : NodeId) :
    (h.searchMatch rule d S).found.get? k = ((g.searchMatch rule d S).found.get? k).map τ := by
  have hagrees : h.agrees (rule.context d) = g.agrees (rule.context d) := by
    funext m
    unfold agrees
    rw [hc.labelsAgree_eq]
  have hrepeats : h.repeatsAt (rule.context d) (h.links d) rule.createdLinkKinds d =
      g.repeatsAt (rule.context d) (g.links d) rule.createdLinkKinds d :=
    funext fun m => hc.repeatsAt_eq hg hh rule.createdLinkKinds m
  unfold searchMatch
  dsimp only
  rw [Strategy.search_eq, Strategy.search_eq, value_visitEach_considerMatch,
    value_visitEach_considerMatch, hc.adjacency_eq hg hh, hc.labelsAgree_eq, hagrees, hrepeats]
  dsimp only
  -- the same assignment comes first of those that do not repeat links
  generalize List.head? _ = first
  cases first with
  | none => rfl
  | some m => exact hc.get?_matchOf m k

lemma isEmpty_eq {found found' : Match} (hfound : ∀ k, found'.get? k = (found.get? k).map τ) :
    found'.isEmpty = found.isEmpty := by
  rw [← Bool.not_inj_iff, Bool.eq_iff_iff, Bool.not_eq_true', Bool.not_eq_true',
    SortedMap.isEmpty_eq_false_iff, SortedMap.isEmpty_eq_false_iff]
  simp only [hfound, Option.map_eq_some_iff]
  constructor
  · rintro ⟨k, _, id, hk, -⟩
    exact ⟨k, id, hk⟩
  · rintro ⟨k, id, hk⟩
    exact ⟨k, τ id, id, hk, rfl⟩

end Copies

end Graph

end TripleGrammar
