import TripleGrammar.Proofs.Copies

/-!
# Firings on a graph and on a copy

A rule that fires on a graph and at the same place on a copy of it adds the same nodes and edges to
both, up to the ids. The new ids are drawn from two supplies, so the replacement of ids is continued
by sending what the one gives out to what the other gives out at the same turn.
-/

namespace TripleGrammar

namespace IdSupply

variable {ids ids' : IdSupply} {σ : NodeId → NodeId} {g : Graph} {n : Nat} {id : NodeId}

/-- Replaces the ids below those that `ids` gives out by `σ`, and these by what `ids'` gives out at
the same turn. -/
def rebase (ids ids' : IdSupply) (σ : NodeId → NodeId) (id : NodeId) : NodeId :=
  if id.raw < ids.next.raw then σ id else ⟨ids'.next.raw + (id.raw - ids.next.raw)⟩

/-- The id that is given out next lies above those of the graph. -/
def Beyond (ids : IdSupply) (g : Graph) : Prop := ∀ n ∈ g.nodes, n.id.raw < ids.next.raw

instance : Decidable (ids.Beyond g) := inferInstanceAs (Decidable (∀ n ∈ g.nodes, _))

/-- There is room for `n` ids beyond those of the graph. They are given out before the supply starts
over. -/
structure RoomBeyond (ids : IdSupply) (g : Graph) (n : Nat) : Prop where
  beyond : ids.Beyond g
  lasts : ids.next.raw.toNat + n < 2 ^ 64

instance : Decidable (ids.RoomBeyond g n) :=
  decidable_of_iff (ids.Beyond g ∧ ids.next.raw.toNat + n < 2 ^ 64)
    ⟨fun h => ⟨h.1, h.2⟩, fun h => ⟨h.beyond, h.lasts⟩⟩

lemma rebase_of_lt (h : id.raw < ids.next.raw) : ids.rebase ids' σ id = σ id := if_pos h

lemma rebase_next_skip (h : ids.next.raw.toNat + n < 2 ^ 64) :
    ids.rebase ids' σ (ids.skip n).next = (ids'.skip n).next := by
  have hle : ¬(ids.skip n).next.raw < ids.next.raw := by
    rw [UInt64.lt_iff_toNat_lt, toNat_next_skip, Nat.mod_eq_of_lt h]
    omega
  have hraw : (ids.skip n).next.raw - ids.next.raw = UInt64.ofNat n := by
    rw [raw_next_skip, UInt64.add_comm, UInt64.add_sub_cancel]
  unfold rebase
  rw [if_neg hle, hraw, ← raw_next_skip]

/-- As long as the first supply does not start over, its ids are sent to those of the second. -/
lemma map_rebase_draws {m : Nat} (h : ids.next.raw.toNat + (m + n) ≤ 2 ^ 64) :
    ((ids.skip m).draws n).map (ids.rebase ids' σ) = (ids'.skip m).draws n := by
  rw [draws_eq, draws_eq, List.map_map]
  apply List.map_congr_left
  intro i hi
  have hlt := List.mem_range.mp hi
  simp only [Function.comp_apply, skip_skip]
  exact rebase_next_skip (by omega)

lemma lt_next_skip_of_mem_draws (h : ids.next.raw.toNat + n < 2 ^ 64) (hid : id ∈ ids.draws n) :
    id.raw < (ids.skip n).next.raw := by
  obtain ⟨k, hk, hraw⟩ := raw_of_mem_draws hid
  rw [UInt64.lt_iff_toNat_lt, toNat_next_skip, hraw, Nat.mod_eq_of_lt h,
    Nat.mod_eq_of_lt (by omega)]
  omega

namespace RoomBeyond

lemma mono {m : Nat} (h : ids.RoomBeyond g n) (hle : m ≤ n) : ids.RoomBeyond g m :=
  ⟨h.beyond, (Nat.add_le_add_left hle _).trans_lt h.lasts⟩

/-- The ids that are given out are new to the graph. -/
lemma contains_eq_false (h : ids.RoomBeyond g n) (hg : g.WellFormed) (hid : id ∈ ids.draws n) :
    g.contains id = false := by
  rw [Bool.eq_false_iff]
  intro hcontains
  obtain ⟨m, hm, rfl, -⟩ := hg.exists_find? hcontains
  have hbelow := UInt64.lt_iff_toNat_lt.mp (h.beyond m hm)
  have hlasts := h.lasts
  obtain ⟨k, hk, hraw⟩ := raw_of_mem_draws hid
  omega

lemma extend {nodes : List Node} {edges : List Edge} (h : ids.RoomBeyond g nodes.length)
    (hids : nodes.map (·.id) = ids.draws nodes.length) :
    (ids.skip nodes.length).Beyond (g.extend nodes edges) := by
  intro n hn
  rw [Graph.nodes_extend] at hn
  rcases List.mem_append.mp hn with hold | hnew
  · have hlt := UInt64.lt_iff_toNat_lt.mp (h.beyond n hold)
    rw [UInt64.lt_iff_toNat_lt, toNat_next_skip, Nat.mod_eq_of_lt h.lasts]
    omega
  · apply lt_next_skip_of_mem_draws h.lasts
    rw [← hids]
    exact List.mem_map_of_mem hnew

end RoomBeyond

end IdSupply

namespace Rule

variable {r : Rule} {d : Domain} {g h g₁ h₁ : Graph} {τ : NodeId → NodeId}
  {found found' bound bound' : Match} {nodes nodes' : List Node} {edges edges' : List Edge}
  {ids ids' ids₁ ids₁' : IdSupply} {f f' : Firing}

/-! ### Enough ids -/

/-- A rule with a match has fewer created nodes to add than there are ids. -/
lemma length_newTemplates_lt (hrule : r.graph.WellFormed) (hfits : g.Fits r.graph d found)
    (hfound : found.isEmpty = false) : (r.newTemplates d).length < 2 ^ 64 := by
  obtain ⟨k, id, hk⟩ := SortedMap.isEmpty_eq_false_iff.mp hfound
  have hcontext : (r.graph.context d).contains k = true :=
    (hfits.contains_iff k).mp (Option.isSome_iff_exists.mpr ⟨id, hk⟩)
  have hnodup : (k :: (r.newTemplates d).map (·.id)).Nodup := by
    refine List.nodup_cons.mpr ⟨fun hmem => ?_, ?_⟩
    · obtain ⟨t, ht, rfl⟩ := List.mem_map.mp hmem
      simpa [hcontext] using (List.mem_filter.mp ht).2
    · exact (nodup_creationNodes hrule).sublist (List.filter_sublist.map _)
  have hle := NodeId.length_le_of_nodup hnodup
  rw [List.length_cons, List.length_map] at hle
  omega

/-- If the supply is beyond the host and does not start over, a firing succeeds, and the supply is
beyond the host that it leaves. -/
lemma exists_fire_eq_ok (hrule : r.graph.WellFormed) (hg : g.WellFormed)
    (hfits : g.Fits r.graph d found) (hfound : found.isEmpty = false) (hbeyond : ids.Beyond g)
    (hroom : ids.next.raw ≤ (r.fire found d g ids).2.2.next.raw) :
    ∃ f g₁, r.fire found d g ids = (.ok f, g₁, ids.skip (r.newTemplates d).length) ∧
      ids.next.raw.toNat + (r.newTemplates d).length < 2 ^ 64 ∧
      (ids.skip (r.newTemplates d).length).Beyond g₁ := by
  have hfew := length_newTemplates_lt hrule hfits hfound
  have hlt := ids.next.raw.toNat_lt
  cases hfire : r.fire found d g ids with
  | mk result rest =>
    obtain ⟨g₁, ids₁⟩ := rest
    rw [hfire, UInt64.le_iff_toNat_le] at hroom
    cases result with
    | ok f =>
      obtain ⟨nodes, edges, bound, -, rfl, rfl, hids, hadds, -⟩ := of_fire_ok hrule hg hfits hfire
      have hlength := hadds.instances.length_eq
      rw [IdSupply.toNat_next_skip] at hroom
      have henough : ids.next.raw.toNat + nodes.length < 2 ^ 64 := by omega
      rw [hlength]
      exact ⟨f, _, rfl, henough, IdSupply.RoomBeyond.extend ⟨hbeyond, henough⟩ hids⟩
    | error e =>
      obtain ⟨j, hj, rfl, hcontains⟩ := of_fire_error hrule hg hfits hfire
      -- the id that is in use lies beyond the host unless the supply has started over
      obtain ⟨n, hn, hid, -⟩ := hg.exists_find? hcontains
      have hbelow := UInt64.lt_iff_toNat_lt.mp (hbeyond n hn)
      rw [hid, IdSupply.toNat_next_skip] at hbelow
      rw [IdSupply.toNat_next_skip] at hroom
      omega

/-! ### The same firing twice -/

lemma nodes_eq_map {templates : List Node}
    (hinstances : List.Forall₂ (IsInstance bound) templates nodes)
    (hinstances' : List.Forall₂ (IsInstance bound') templates nodes')
    (hids : nodes'.map (·.id) = (nodes.map (·.id)).map τ) :
    nodes' = nodes.map (·.mapId τ) := by
  induction hinstances generalizing nodes' with
  | nil => exact List.forall₂_nil_left_iff.mp hinstances'
  | @cons t n ts ns hinst _ ih =>
    obtain ⟨n', ns', hinst', hrest', rfl⟩ := List.forall₂_cons_left_iff.mp hinstances'
    obtain ⟨hid, hids⟩ := List.cons.inj hids
    rw [List.map_cons, ih hrest' hids]
    congr 1
    obtain ⟨id, kind, domain, action, isDefault⟩ := n
    obtain ⟨id', kind', domain', action', isDefault'⟩ := n'
    unfold Node.mapId
    rw [Node.mk.injEq]
    exact ⟨hid, hinst'.kind.trans hinst.kind.symm, hinst'.domain.trans hinst.domain.symm,
      hinst'.action.trans hinst.action.symm, hinst'.isDefault.trans hinst.isDefault.symm⟩

lemma edges_eq_map {es : List Edge} (hbound : ∀ k, bound'.get? k = (bound.get? k).map τ)
    (hplaced : List.Forall₂ (fun e e' => placeEdge bound e = .ok e') es edges)
    (hplaced' : List.Forall₂ (fun e e' => placeEdge bound' e = .ok e') es edges') :
    edges' = edges.map (·.mapIds τ) := by
  induction hplaced generalizing edges' with
  | nil => exact List.forall₂_nil_left_iff.mp hplaced'
  | @cons e e₁ es edges hplace _ ih =>
    obtain ⟨e₂, rest, hplace', hrest', rfl⟩ := List.forall₂_cons_left_iff.mp hplaced'
    obtain ⟨ht, hh, hkind, haction⟩ := placeEdge_eq_ok_iff.mp hplace
    have hmapped : placeEdge bound' e = .ok (e₁.mapIds τ) :=
      placeEdge_eq_ok_iff.mpr ⟨by rw [hbound, ht]; rfl, by rw [hbound, hh]; rfl, hkind, haction⟩
    rw [List.map_cons, ih hrest', Except.ok.inj (hplace'.symm.trans hmapped)]

lemma get?_bound_eq_map {ts : List NodeId} {new new' : List NodeId}
    (hfound : ∀ k, found'.get? k = (found.get? k).map τ) (hnew : new' = new.map τ)
    (hbound : ∀ k id, bound.get? k = some id ↔ found.get? k = some id ∨ (k, id) ∈ ts.zip new)
    (hbound' : ∀ k id, bound'.get? k = some id ↔ found'.get? k = some id ∨ (k, id) ∈ ts.zip new')
    (k : NodeId) : bound'.get? k = (bound.get? k).map τ := by
  have hzip : ∀ id', (k, id') ∈ ts.zip new' ↔ ∃ id, (k, id) ∈ ts.zip new ∧ τ id = id' := by
    intro id'
    rw [hnew, List.zip_map_right, List.mem_map]
    constructor
    · rintro ⟨⟨k', id⟩, hmem, heq⟩
      obtain ⟨rfl, rfl⟩ := Prod.mk.inj heq
      exact ⟨id, hmem, rfl⟩
    · rintro ⟨id, hmem, rfl⟩
      exact ⟨(k, id), hmem, rfl⟩
  apply Option.ext
  intro id'
  rw [hbound', hfound, hzip, Option.map_eq_some_iff, Option.map_eq_some_iff]
  simp only [hbound, or_and_right, exists_or]

/-- If the new ids correspond, a firing on a copy adds as many nodes and edges and leaves a copy of
what the firing on the graph leaves. -/
theorem fire_copies (hrule : r.graph.WellFormed) (hg : g.WellFormed) (hh : h.WellFormed)
    (hc : h.Copies g τ) (hfits : g.Fits r.graph d found) (hfits' : h.Fits r.graph d found')
    (hfound : ∀ k, found'.get? k = (found.get? k).map τ)
    (hdraws : ids'.draws (r.newTemplates d).length =
      (ids.draws (r.newTemplates d).length).map τ)
    (hfire : r.fire found d g ids = (.ok f, g₁, ids₁))
    (hfire' : r.fire found' d h ids' = (.ok f', h₁, ids₁')) :
    f' = f ∧ h₁.Copies g₁ τ := by
  obtain ⟨nodes, edges, bound, rfl, rfl, -, hids, hadds, hbound⟩ :=
    of_fire_ok hrule hg hfits hfire
  obtain ⟨nodes', edges', bound', rfl, rfl, -, hids', hadds', hbound'⟩ :=
    of_fire_ok hrule hh hfits' hfire'
  have hnew : nodes'.map (·.id) = (nodes.map (·.id)).map τ := by
    rw [hids, hids', ← hadds.instances.length_eq, ← hadds'.instances.length_eq, hdraws]
  have hnodes := nodes_eq_map hadds.instances hadds'.instances hnew
  have hedges := edges_eq_map (get?_bound_eq_map hfound hnew hbound hbound')
    hadds.placed hadds'.placed
  refine ⟨by rw [hnodes, hedges, List.length_map, List.length_map], ?_, ?_, ?_⟩
  · rw [Graph.name_extend, Graph.name_extend, hc.name]
  · rw [Graph.nodes_extend, Graph.nodes_extend, List.map_append, hc.nodes, hnodes]
  · rw [hadds.edges_extend, hadds'.edges_extend, List.map_append, hc.edges, hedges]

end Rule

end TripleGrammar
