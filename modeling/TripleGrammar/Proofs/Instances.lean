import TripleGrammar.Proofs.Matches
import TripleGrammar.Derivation
import Mathlib.Algebra.Group.Nat.Defs
import Mathlib.Data.List.Pairwise
import Mathlib.Data.List.Perm.Basic

/-!
# New nodes of a firing

The ids that a supply gives out in a row differ as long as there are no more of them than there are
ids. A firing makes one node for each template that the match does not bind, unless it is given an
id that the host has already.
-/

namespace TripleGrammar

namespace IdSupply

/-- The ids that are given out next. -/
def draws (ids : IdSupply) : Nat → List NodeId
  | 0 => []
  | n + 1 => ids.next :: ids.advance.draws n

/-- The supply after it has given out some ids. -/
def skip (ids : IdSupply) : Nat → IdSupply
  | 0 => ids
  | n + 1 => ids.advance.skip n

variable {ids : IdSupply} {n : Nat} {id : NodeId}

lemma toNat_next_advance (ids : IdSupply) :
    ids.advance.next.raw.toNat = (ids.next.raw.toNat + 1) % 2 ^ 64 := by
  unfold advance
  exact UInt64.toNat_add ..

lemma raw_of_mem_draws (h : id ∈ ids.draws n) :
    ∃ k < n, id.raw.toNat = (ids.next.raw.toNat + k) % 2 ^ 64 := by
  induction n generalizing ids with
  | zero => cases h
  | succ n ih =>
    rcases List.mem_cons.mp h with rfl | h
    · have hlt := ids.next.raw.toNat_lt
      exact ⟨0, Nat.succ_pos n, by omega⟩
    · obtain ⟨k, hk, hraw⟩ := ih h
      have hnext := ids.toNat_next_advance
      exact ⟨k + 1, by omega, by omega⟩

lemma nodup_draws (h : n ≤ 2 ^ 64) : (ids.draws n).Nodup := by
  induction n generalizing ids with
  | zero => exact List.nodup_nil
  | succ n ih =>
    refine List.nodup_cons.mpr ⟨fun hmem => ?_, ih (by omega)⟩
    obtain ⟨k, hk, hraw⟩ := raw_of_mem_draws hmem
    have hlt := ids.next.raw.toNat_lt
    have hnext := ids.toNat_next_advance
    omega

lemma raw_next_skip (ids : IdSupply) (n : Nat) :
    (ids.skip n).next.raw = ids.next.raw + UInt64.ofNat n := by
  induction n generalizing ids with
  | zero => exact (UInt64.add_zero _).symm
  | succ n ih =>
    have hsucc : UInt64.ofNat (n + 1) = 1 + UInt64.ofNat n := by
      rw [Nat.add_comm, UInt64.ofNat_add]
      rfl
    rw [hsucc, ← UInt64.add_assoc]
    exact ih ids.advance

lemma toNat_next_skip (ids : IdSupply) (n : Nat) :
    (ids.skip n).next.raw.toNat = (ids.next.raw.toNat + n) % 2 ^ 64 := by
  rw [raw_next_skip, UInt64.toNat_add, UInt64.toNat_ofNat', Nat.add_mod_mod]

lemma skip_skip (ids : IdSupply) (m n : Nat) : (ids.skip m).skip n = ids.skip (m + n) := by
  induction m generalizing ids with
  | zero => rw [Nat.zero_add]; rfl
  | succ m ih =>
    rw [Nat.succ_add]
    exact ih ids.advance

lemma advance_skip (ids : IdSupply) (n : Nat) : (ids.skip n).advance = ids.skip (n + 1) :=
  skip_skip ids n 1

lemma next_skip_empty (n : Nat) : (({} : IdSupply).skip n).next = ⟨.ofNat n⟩ :=
  congrArg NodeId.mk ((raw_next_skip {} n).trans (UInt64.zero_add _))

/-- The ids are given out one after the other. -/
lemma draws_eq (ids : IdSupply) (n : Nat) :
    ids.draws n = (List.range n).map fun i => (ids.skip i).next := by
  induction n generalizing ids with
  | zero => rfl
  | succ n ih =>
    rw [List.range_succ_eq_map, List.map_cons, List.map_map]
    exact congrArg (ids.next :: ·) (ih ids.advance)

end IdSupply

lemma NodeId.length_le_of_nodup {l : List NodeId} (h : l.Nodup) : l.length ≤ 2 ^ 64 := by
  have hinj : Function.Injective fun id : NodeId => id.raw.toNat := by
    rintro ⟨a⟩ ⟨b⟩ hab
    exact congrArg NodeId.mk (UInt64.toNat_inj.mp hab)
  have hsub : (l.map fun id => id.raw.toNat) ⊆ List.range (2 ^ 64) := by
    intro k hk
    obtain ⟨id, -, rfl⟩ := List.mem_map.mp hk
    exact List.mem_range.mpr id.raw.toNat_lt
  have hle := (List.subperm_of_subset (h.map hinj) hsub).length_le
  rwa [List.length_map, List.length_range] at hle

section

variable {α β : Type} {R : α → β → Prop} {as : List α} {bs : List β}

lemma exists_right_of_forall₂ (h : List.Forall₂ R as bs) {a : α} (ha : a ∈ as) :
    ∃ b ∈ bs, R a b := by
  induction h with
  | nil => cases ha
  | cons hab _ ih =>
    rcases List.mem_cons.mp ha with rfl | ha
    · exact ⟨_, List.mem_cons_self, hab⟩
    · obtain ⟨b, hb, hr⟩ := ih ha
      exact ⟨b, List.mem_cons_of_mem _ hb, hr⟩

lemma exists_left_of_forall₂ (h : List.Forall₂ R as bs) {b : β} (hb : b ∈ bs) :
    ∃ a ∈ as, R a b :=
  @exists_right_of_forall₂ _ _ (flip R) _ _ h.flip b hb

/-- If blocks are put together without a repetition, no element is in two of them. -/
lemma eq_of_nodup_flatMap {f : α → List β} (h : (as.flatMap f).Nodup) {a a' : α} (ha : a ∈ as)
    (ha' : a' ∈ as) {b : β} (hb : b ∈ f a) (hb' : b ∈ f a') : a = a' := by
  have : Std.Symm (Function.onFun List.Disjoint f) := ⟨fun _ _ hdisjoint _ hx hy => hdisjoint hy hx⟩
  by_contra hne
  exact (List.nodup_flatMap.mp h).2.forall ha ha' hne hb hb'

end

namespace Rule

variable {host : Graph} {templates nodes : List Node} {found bound : Match} {ids : IdSupply}

/-- A host node made from a template, at the id to which the match binds the template. -/
structure IsInstance (bound : Match) (template n : Node) : Prop where
  bound : bound.get? template.id = some n.id
  kind : n.kind = template.kind
  domain : n.domain = template.domain
  isDefault : n.isDefault = (template.isDefault && template.isCorrespondence)
  action : n.action = none

lemma IsInstance.correspondence {template n : Node} (h : IsInstance bound template n)
    (hdefault : n.isDefault = true) : n.domain = .correspondence := by
  have hflag := hdefault
  rw [h.isDefault, Bool.and_eq_true] at hflag
  rw [h.domain]
  exact eq_of_beq hflag.2

/-- The nodes are made from the templates that `found` does not bind, and `bound` binds them too. -/
structure Instantiates (host : Graph) (templates : List Node) (found : Match) (nodes : List Node)
    (bound : Match) : Prop where
  instances : List.Forall₂ (IsInstance bound) (templates.filter fun t => !found.contains t.id) nodes
  fresh : ∀ n ∈ nodes, host.contains n.id = false
  keeps : ∀ k id, found.get? k = some id → bound.get? k = some id
  bound : ∀ k id, bound.get? k = some id → found.get? k = some id ∨ ∃ n ∈ nodes, n.id = id

/-- Binding one template leaves the others unbound that were so before. -/
lemma unbound_insert {template : Node} {rest : List Node}
    (hother : ∀ t ∈ rest, t.id ≠ template.id) (id : NodeId) :
    (rest.filter fun t => !(found.insert template.id id).contains t.id) =
      rest.filter fun t => !found.contains t.id := by
  apply List.filter_congr
  intro t ht
  unfold SortedMap.contains
  rw [SortedMap.get?_insert_of_ne _ _ (hother t ht)]

lemma Instantiates.cons {template n : Node} {rest : List Node}
    (hunbound : found.contains template.id = false)
    (hnew : host.contains n.id = false)
    (hother : ∀ t ∈ rest, t.id ≠ template.id)
    (hn : ∀ bound : Match, bound.get? template.id = some n.id → IsInstance bound template n)
    (h : Instantiates host rest (found.insert template.id n.id) nodes bound) :
    Instantiates host (template :: rest) found (n :: nodes) bound := by
  refine ⟨?_, ?_, ?_, ?_⟩
  · rw [List.filter_cons_of_pos (by simp [hunbound]), ← unbound_insert hother n.id]
    exact List.Forall₂.cons (hn bound (h.keeps _ _ (SortedMap.get?_insert_self ..))) h.instances
  · intro m hm
    rcases List.mem_cons.mp hm with rfl | hm
    · exact hnew
    · exact h.fresh m hm
  · intro k id hk
    have hne : k ≠ template.id := by
      rintro rfl
      simp [SortedMap.contains, hk] at hunbound
    apply h.keeps
    rw [SortedMap.get?_insert_of_ne _ _ hne]
    exact hk
  · intro k id hk
    rcases h.bound k id hk with hk | ⟨m, hm, hid⟩
    · by_cases heq : k = template.id
      · subst heq
        rw [SortedMap.get?_insert_self] at hk
        exact Or.inr ⟨n, List.mem_cons_self, Option.some.inj hk⟩
      · rw [SortedMap.get?_insert_of_ne _ _ heq] at hk
        exact Or.inl hk
    · exact Or.inr ⟨m, List.mem_cons_of_mem _ hm, hid⟩

/-- New nodes can be made, with ids in the order in which they are given out, or the first of these
ids that is in use already is reported. -/
theorem instantiate_cases (htemplates : (templates.map (·.id)).Nodup) (found : Match)
    (ids : IdSupply) :
    (∃ id ids', instantiate host templates found ids = (.error (.duplicateNode id), ids') ∧
        (ids.draws (templates.filter fun t => !found.contains t.id).length).find? host.contains =
          some id) ∨
      ∃ nodes bound ids', instantiate host templates found ids = (.ok (nodes, bound), ids') ∧
        Instantiates host templates found nodes bound ∧
        nodes.map (·.id) = ids.draws nodes.length := by
  induction templates generalizing found ids with
  | nil =>
    refine Or.inr ⟨[], found, ids, rfl, ⟨List.Forall₂.nil, by simp, ?_, ?_⟩, rfl⟩
    · exact fun _ _ h => h
    · exact fun _ _ h => Or.inl h
  | cons template rest ih =>
    obtain ⟨hother, hrest⟩ := Graph.nodup_ids_cons htemplates
    unfold instantiate
    by_cases hbound : found.contains template.id = true
    · rw [if_pos hbound, List.filter_cons_of_neg (by simp [hbound])]
      rcases ih hrest found ids with herror | ⟨nodes, bound, ids', hrun, hspec, hids⟩
      · exact Or.inl herror
      · refine Or.inr ⟨nodes, bound, ids', hrun, ⟨?_, hspec.fresh, hspec.keeps, hspec.bound⟩, hids⟩
        rw [List.filter_cons_of_neg (by simp [hbound])]
        exact hspec.instances
    · rw [if_neg hbound, List.filter_cons_of_pos (by simp [hbound]), List.length_cons]
      dsimp only
      by_cases hused : host.contains (ids.instantiate template).1.id = true
      · rw [if_pos hused]
        exact Or.inl ⟨_, _, rfl, List.find?_cons_of_pos hused⟩
      · rw [if_neg hused]
        rcases ih hrest (found.insert template.id (ids.instantiate template).1.id)
          (ids.instantiate template).2 with
          ⟨id, ids', hrun, hid⟩ | ⟨nodes, bound, ids', hrun, hspec, hids⟩
        · rw [hrun]
          rw [unbound_insert hother] at hid
          exact Or.inl ⟨id, ids', rfl, (List.find?_cons_of_neg hused).trans hid⟩
        · rw [hrun]
          refine Or.inr ⟨_, bound, ids', rfl, ?_, ?_⟩
          · exact hspec.cons (Bool.eq_false_iff.mpr hbound) (Bool.eq_false_iff.mpr hused) hother
              fun b hb => ⟨hb, rfl, rfl, rfl, rfl⟩
          · rw [List.map_cons, hids]
            rfl

/-- The ids that are drawn are those of the new nodes, and the match is extended by these alone. -/
theorem of_instantiate (htemplates : (templates.map (·.id)).Nodup) {ids' : IdSupply}
    (h : instantiate host templates found ids = (.ok (nodes, bound), ids')) :
    ids' = ids.skip nodes.length ∧
      ∀ k id, bound.get? k = some id ↔ found.get? k = some id ∨
        (k, id) ∈ ((templates.filter fun t => !found.contains t.id).map (·.id)).zip
          (nodes.map (·.id)) := by
  induction templates generalizing found ids nodes with
  | nil =>
    cases h
    exact ⟨rfl, by simp⟩
  | cons template rest ih =>
    obtain ⟨hother, hrest⟩ := Graph.nodup_ids_cons htemplates
    unfold instantiate at h
    by_cases hbound : found.contains template.id = true
    · rw [if_pos hbound] at h
      rw [List.filter_cons_of_neg (by simp [hbound])]
      exact ih hrest h
    · rw [if_neg hbound] at h
      rw [List.filter_cons_of_pos (by simp [hbound])]
      dsimp only at h
      split at h
      · cases h
      · split at h
        next ns m ids₁ hrun =>
          cases h
          obtain ⟨hids, hget⟩ := ih hrest hrun
          refine ⟨hids, fun k id => ?_⟩
          rw [hget, unbound_insert hother, List.map_cons, List.map_cons, List.zip_cons_cons,
            List.mem_cons, Prod.mk.injEq]
          by_cases hk : k = template.id
          · subst hk
            have hnone : found.get? template.id = none := by
              simpa [SortedMap.contains] using hbound
            simp [hnone, eq_comm]
          · simp [SortedMap.get?_insert_of_ne _ _ hk, hk]
        next => cases h

/-- Up to the id that the host has already, ids are drawn one after the other. -/
theorem of_instantiate_error (htemplates : (templates.map (·.id)).Nodup) {ids' : IdSupply}
    {e : GraphError} (h : instantiate host templates found ids = (.error e, ids')) :
    ∃ j < (templates.filter fun t => !found.contains t.id).length,
      ids' = ids.skip (j + 1) ∧ host.contains (ids.skip j).next = true := by
  induction templates generalizing found ids with
  | nil => cases h
  | cons template rest ih =>
    obtain ⟨hother, hrest⟩ := Graph.nodup_ids_cons htemplates
    unfold instantiate at h
    by_cases hbound : found.contains template.id = true
    · rw [if_pos hbound] at h
      rw [List.filter_cons_of_neg (by simp [hbound])]
      exact ih hrest h
    · rw [if_neg hbound] at h
      rw [List.filter_cons_of_pos (by simp [hbound]), List.length_cons]
      dsimp only at h
      split at h
      next hused =>
        cases h
        exact ⟨0, Nat.succ_pos _, rfl, hused⟩
      · split at h
        next => cases h
        next e' ids₁ hrun =>
          cases h
          obtain ⟨j, hj, hids, hcontains⟩ := ih hrest hrun
          rw [unbound_insert hother] at hj
          exact ⟨j + 1, Nat.succ_lt_succ hj, hids, hcontains⟩

end Rule

end TripleGrammar
