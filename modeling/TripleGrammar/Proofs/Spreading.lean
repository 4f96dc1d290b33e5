import TripleGrammar.Pruning
import TripleGrammar.Proofs.Parts
import Mathlib.Logic.Relation

/-!
# Spreading along edges

What `Graph.reachable` collects is what paths lead to that avoid the given nodes. Each round adds
the heads of the edges from the nodes that are new, so only these can have a head that is still
missing, and when no node is new none is missing. There are no more rounds than there are nodes.
-/

namespace TripleGrammar.Graph

variable {g : Graph} {stop seeds frontier seen : List NodeId} {a b s : NodeId} {n : Nat}
  {P : NodeId → Prop}

/-- An edge runs from `a` to `b`, and neither of the two is to be avoided. -/
def Passes (g : Graph) (avoid : NodeId → Prop) (a b : NodeId) : Prop :=
  ¬avoid a ∧ ¬avoid b ∧ ∃ e ∈ g.edges, e.tail = a ∧ e.head = b

/-- A path that avoids the given nodes leads from `a` to `b`. -/
def Reaches (g : Graph) (avoid : NodeId → Prop) : NodeId → NodeId → Prop :=
  Relation.ReflTransGen (g.Passes avoid)

lemma passes_reverse (hg : g.WellFormed) : g.reverse.Passes P a b ↔ g.Passes P b a := by
  unfold Passes
  simp only [edges_reverse hg, List.mem_map, exists_exists_and_eq_and, Edge.reversed]
  constructor
  · rintro ⟨ha, hb, e, he, hh, ht⟩
    exact ⟨hb, ha, e, he, ht, hh⟩
  · rintro ⟨hb, ha, e, he, ht, hh⟩
    exact ⟨ha, hb, e, he, hh, ht⟩

lemma reaches_reverse (hg : g.WellFormed) : g.reverse.Reaches P a b ↔ g.Reaches P b a := by
  have hswap : g.reverse.Passes P = Function.swap (g.Passes P) := by
    funext x y
    exact propext (passes_reverse hg)
  unfold Reaches
  rw [hswap]
  exact Relation.reflTransGen_swap

/-- What has been seen after some rounds: it can be reached, and only from the frontier may there be
edges that have not been followed. -/
structure Spreads (g : Graph) (stop seeds frontier seen : List NodeId) : Prop where
  frontier_subset : frontier ⊆ seen
  outside : ∀ a ∈ seen, a ∉ stop
  sound : ∀ a ∈ seen, ∃ s ∈ seeds, g.Reaches (· ∈ stop) s a
  closed : ∀ a ∈ seen, a ∉ frontier → ∀ b, g.Passes (· ∈ stop) a b → b ∈ seen

def unseen (g : Graph) (seen : List NodeId) : List NodeId :=
  (g.nodes.map (·.id)).filter fun id => !seen.contains id

/-- The nodes that the next round adds. -/
def freshFrom (g : Graph) (stop frontier seen : List NodeId) : List NodeId :=
  let heads := frontier.flatMap fun id => (g.successorsOf id).map (·.id)
  heads.eraseDups.filter fun id => !stop.contains id && !seen.contains id

lemma spread_succ : g.spread stop (n + 1) frontier seen =
    if (g.freshFrom stop frontier seen).isEmpty then seen
    else g.spread stop n (g.freshFrom stop frontier seen)
      (seen ++ g.freshFrom stop frontier seen) := rfl

lemma mem_freshFrom_iff (hg : g.WellFormed) : b ∈ g.freshFrom stop frontier seen ↔
    (∃ a ∈ frontier, ∃ e ∈ g.edges, e.tail = a ∧ e.head = b) ∧ b ∉ stop ∧ b ∉ seen := by
  unfold freshFrom
  simp [List.mem_eraseDups, List.mem_flatMap, hg.mem_ids_successorsOf_iff, -List.mem_map]

lemma length_unseen_lt (hg : g.WellFormed) (hb : b ∈ g.freshFrom stop frontier seen) :
    (g.unseen (seen ++ g.freshFrom stop frontier seen)).length < (g.unseen seen).length := by
  obtain ⟨⟨a, -, e, he, -, rfl⟩, -, hseen⟩ := (mem_freshFrom_iff hg).mp hb
  have hfilter : g.unseen (seen ++ g.freshFrom stop frontier seen) =
      (g.unseen seen).filter fun id => !(g.freshFrom stop frontier seen).contains id := by
    unfold unseen
    rw [List.filter_filter]
    apply List.filter_congr
    intro id _
    simp [Bool.and_comm]
  rw [hfilter, List.length_filter_lt_length_iff_exists]
  exact ⟨e.head, List.mem_filter.mpr ⟨hg.head_mem e he, by simpa using hseen⟩, by simpa using hb⟩

namespace Spreads

lemma step (hg : g.WellFormed) (h : g.Spreads stop seeds frontier seen) :
    g.Spreads stop seeds (g.freshFrom stop frontier seen)
      (seen ++ g.freshFrom stop frontier seen) := by
  refine ⟨List.subset_append_right _ _, ?_, ?_, ?_⟩
  · intro b hb
    rcases List.mem_append.mp hb with hb | hb
    · exact h.outside b hb
    · exact ((mem_freshFrom_iff hg).mp hb).2.1
  · intro b hb
    rcases List.mem_append.mp hb with hb | hb
    · exact h.sound b hb
    · obtain ⟨⟨a, ha, hedge⟩, hstop, -⟩ := (mem_freshFrom_iff hg).mp hb
      obtain ⟨s, hs, hpath⟩ := h.sound a (h.frontier_subset ha)
      exact ⟨s, hs, hpath.tail ⟨h.outside a (h.frontier_subset ha), hstop, hedge⟩⟩
  · intro a ha hnew b hpass
    have ⟨_, hstop, hedge⟩ := hpass
    have hseen := (List.mem_append.mp ha).resolve_right hnew
    by_cases hb : b ∈ seen
    · exact List.mem_append_left _ hb
    · apply List.mem_append_right
      rw [mem_freshFrom_iff hg]
      by_cases hfront : a ∈ frontier
      · exact ⟨⟨a, hfront, hedge⟩, hstop, hb⟩
      · exact absurd (h.closed a hseen hfront b hpass) hb

/-- With as many rounds as there are unseen nodes, no edge is left that has not been followed. -/
lemma spread (hg : g.WellFormed) (h : g.Spreads stop seeds frontier seen)
    (hn : (g.unseen seen).length ≤ n) :
    g.Spreads stop seeds [] (g.spread stop n frontier seen) ∧
      seen ⊆ g.spread stop n frontier seen := by
  induction n generalizing frontier seen with
  | zero =>
    refine ⟨⟨List.nil_subset _, h.outside, h.sound, ?_⟩, List.Subset.refl _⟩
    rintro a - - b ⟨-, -, e, he, -, rfl⟩
    have hnone : g.unseen seen = [] := List.length_eq_zero_iff.mp (Nat.le_zero.mp hn)
    have hmem : e.head ∈ seen := by
      simpa using List.filter_eq_nil_iff.mp hnone e.head (hg.head_mem e he)
    exact hmem
  | succ n ih =>
    have hstep := h.step hg
    rw [spread_succ]
    split
    next hempty =>
      rw [List.isEmpty_iff] at hempty
      rw [hempty, List.append_nil] at hstep
      exact ⟨hstep, List.Subset.refl _⟩
    next hfresh =>
      obtain ⟨b, hb⟩ := List.exists_mem_of_ne_nil _ (by simpa using hfresh)
      have hless := length_unseen_lt hg hb
      obtain ⟨hspreads, hsub⟩ := ih hstep (by omega)
      exact ⟨hspreads, List.Subset.trans (List.subset_append_left _ _) hsub⟩

end Spreads

theorem mem_reachable_iff (hg : g.WellFormed) (hseeds : ∀ s ∈ seeds, s ∉ stop) :
    a ∈ g.reachable stop seeds ↔ ∃ s ∈ seeds, g.Reaches (· ∈ stop) s a := by
  have hstart : g.Spreads stop seeds seeds seeds :=
    ⟨List.Subset.refl _, hseeds, fun s hs => ⟨s, hs, Relation.ReflTransGen.refl⟩,
      fun s hs hnot => absurd hs hnot⟩
  have hfuel : (g.unseen seeds).length ≤ g.nodes.length := by
    have hle := List.length_filter_le (fun id => !seeds.contains id) (g.nodes.map (·.id))
    rwa [List.length_map] at hle
  obtain ⟨hspreads, hsub⟩ := hstart.spread hg hfuel
  constructor
  · exact hspreads.sound a
  · rintro ⟨s, hs, hpath⟩
    induction hpath with
    | refl => exact hsub hs
    | tail _ hpass ih => exact hspreads.closed _ ih List.not_mem_nil _ hpass

end TripleGrammar.Graph
