import TripleGrammar.Proofs.Pruning
import TripleGrammar.Proofs.Renamings

/-!
# Pruning isomorphic graphs

What pruning keeps is said of edges, labels and flags, so it is the same in isomorphic graphs, and
so is what is left of them. The order of the nodes matters only for the default correspondence at
which pruning fails.
-/

namespace TripleGrammar.Graph

variable {g h : Graph} {σ : NodeId → NodeId} {d : Domain} {flag : Bool} {id a b : NodeId}

lemma Linked.contains (hg : g.WellFormed) (hl : g.Linked d flag id) : g.contains id = true := by
  obtain ⟨c, -, -, e, he, -, rfl, -⟩ := hl
  exact hg.contains_head he

/-- What pruning keeps if it succeeds. -/
lemma of_prune (hg : g.WellFormed) {p : Pruned} (hp : g.prune d = .ok p) :
    ∃ keep : NodeId → Bool, (∀ id, keep id = true ↔ g.Kept d id) ∧
      p.graph.nodes.Perm (g.nodes.filter fun n => keep n.id) ∧
      p.graph.edges = g.edges.filter fun e => keep e.tail && keep e.head := by
  cases hfirst : g.nodes.find? g.unpaired with
  | some c =>
    rw [prune_eq_error hg hfirst] at hp
    cases hp
  | none =>
    obtain ⟨p', hp', -, hkept⟩ := exists_prune hg (d := d) hfirst
    obtain rfl := Except.ok.inj (hp.symm.trans hp')
    exact hkept

namespace Renames

section

variable (hr : g.Renames h σ)
include hr

lemma exists_edge {e : Edge} (he : e ∈ h.edges) :
    ∃ e' ∈ g.edges, e'.tail = σ e.tail ∧ e'.head = σ e.head ∧ e'.kind = e.kind := by
  obtain ⟨e', he', heq⟩ := List.mem_map.mp (hr.edges.mem_iff.mp (List.mem_map_of_mem he))
  exact ⟨e', he', by simpa using heq⟩

variable (hg : g.WellFormed) (hh : h.WellFormed)
include hg hh

lemma domainOf?_eq (hid : h.contains id = true) : g.domainOf? (σ id) = h.domainOf? id := by
  obtain ⟨n, hn, rfl, -⟩ := hh.exists_find? hid
  obtain ⟨m, hm, hmid, -, hdomain, -⟩ := hr.label n hn
  rw [← hmid, hg.domainOf?_of_mem hm, hh.domainOf?_of_mem hn, hdomain]

lemma linked (hl : h.Linked d flag id) : g.Linked d flag (σ id) := by
  obtain ⟨c, hc, hflag, e, he, ht, rfl, hd⟩ := hl
  obtain ⟨hcn, hcd⟩ := List.mem_filter.mp hc
  obtain ⟨c', hc', hid, -, hdomain, hdefault⟩ := hr.label c hcn
  obtain ⟨e', he', ht', hh', -⟩ := hr.exists_edge he
  refine ⟨c', List.mem_filter.mpr ⟨hc', by rwa [hdomain]⟩, hdefault.trans hflag, e', he', ?_, hh',
    ?_⟩
  · rw [ht', ht, hid]
  · rwa [hr.domainOf?_eq hg hh (hh.contains_head he)]

lemma linked_iff (hid : h.contains id = true) : g.Linked d flag (σ id) ↔ h.Linked d flag id := by
  obtain ⟨τ, hτ, hback⟩ := hr.exists_inverse hg hh
  refine ⟨fun hl => ?_, hr.linked hg hh⟩
  rw [← hback id (hh.contains_iff.mp hid)]
  exact hτ.linked hh hg hl

lemma isSeed (hs : h.IsSeed d id) : g.IsSeed d (σ id) :=
  ⟨hs.1, hr.linked hg hh hs.2.1,
    fun hcovered => hs.2.2 ((hr.linked_iff hg hh (hs.2.1.contains hh)).mp hcovered)⟩

lemma reaches (hpath : h.Reaches (h.Covered d) a b) : g.Reaches (g.Covered d) (σ a) (σ b) := by
  refine Relation.ReflTransGen.lift σ (fun x y hxy => ?_) a b hpath
  obtain ⟨hx, hy, e, he, rfl, rfl⟩ := hxy
  obtain ⟨e', he', ht, hd, -⟩ := hr.exists_edge he
  exact ⟨fun hcovered => hx ((hr.linked_iff hg hh (hh.contains_tail he)).mp hcovered),
    fun hcovered => hy ((hr.linked_iff hg hh (hh.contains_head he)).mp hcovered),
    e', he', ht, hd⟩

lemma kept (hk : h.Kept d id) : g.Kept d (σ id) := by
  rcases hk with hcovered | ⟨s, hs, hpath | hpath⟩
  · exact Or.inl (hr.linked hg hh hcovered)
  · exact Or.inr ⟨σ s, hr.isSeed hg hh hs, Or.inl (hr.reaches hg hh hpath)⟩
  · exact Or.inr ⟨σ s, hr.isSeed hg hh hs, Or.inr (hr.reaches hg hh hpath)⟩

lemma kept_iff (hid : h.contains id = true) : g.Kept d (σ id) ↔ h.Kept d id := by
  obtain ⟨τ, hτ, hback⟩ := hr.exists_inverse hg hh
  refine ⟨fun hk => ?_, hr.kept hg hh⟩
  rw [← hback id (hh.contains_iff.mp hid)]
  exact hτ.kept hh hg hk

/-- What pruning makes of two isomorphic graphs is isomorphic. -/
theorem prune {p p' : Pruned} (hp : h.prune d = .ok p) (hp' : g.prune d = .ok p') :
    p'.graph.Renames p.graph σ := by
  obtain ⟨keep, hkeep, hnodes, hedges⟩ := of_prune hh hp
  obtain ⟨keep', hkeep', hnodes', hedges'⟩ := of_prune hg hp'
  have hsame : ∀ id, h.contains id = true → keep' (σ id) = keep id := by
    intro id hid
    rw [Bool.eq_iff_iff, hkeep, hkeep', hr.kept_iff hg hh hid]
  have hmem : ∀ n, n ∈ p.graph.nodes ↔ n ∈ h.nodes ∧ keep n.id = true := by
    intro n
    rw [hnodes.mem_iff, List.mem_filter]
  have hmem' : ∀ n, n ∈ p'.graph.nodes ↔ n ∈ g.nodes ∧ keep' n.id = true := by
    intro n
    rw [hnodes'.mem_iff, List.mem_filter]
  have hlabel : ∀ n ∈ p.graph.nodes, ∃ m ∈ p'.graph.nodes, m.id = σ n.id ∧ m.kind = n.kind ∧
      m.domain = n.domain ∧ m.isDefault = n.isDefault := by
    intro n hn
    obtain ⟨hold, hkeepn⟩ := (hmem n).mp hn
    obtain ⟨m, hm, hid, hlabels⟩ := hr.label n hold
    refine ⟨m, (hmem' m).mpr ⟨hm, ?_⟩, hid, hlabels⟩
    rw [hid, hsame _ (hh.contains_of_mem hold), hkeepn]
  refine ⟨⟨?_, ?_, ?_⟩, hlabel, ?_⟩
  · rintro _ ⟨n, hn, rfl⟩
    obtain ⟨m, hm, hid, -⟩ := hlabel n hn
    exact ⟨m, hm, hid⟩
  · rintro _ ⟨n, hn, rfl⟩ _ ⟨m, hm, rfl⟩ heq
    exact hr.bijOn.injOn ⟨n, ((hmem n).mp hn).1, rfl⟩ ⟨m, ((hmem m).mp hm).1, rfl⟩ heq
  · rintro _ ⟨m, hm, rfl⟩
    obtain ⟨hold, hkeepm⟩ := (hmem' m).mp hm
    obtain ⟨_, ⟨n, hn, rfl⟩, heq⟩ := hr.bijOn.surjOn ⟨m, hold, rfl⟩
    rw [← heq, hsame _ (hh.contains_of_mem hn)] at hkeepm
    exact ⟨n.id, ⟨n, (hmem n).mpr ⟨hn, hkeepm⟩, rfl⟩, heq⟩
  · -- an edge is kept in one graph exactly if its image is kept in the other
    have hfilter := hr.edges.filter fun t => keep' t.1 && keep' t.2.1
    rw [List.filter_map, List.filter_map] at hfilter
    rw [hedges, hedges']
    refine (List.Perm.of_eq (congrArg _ (List.filter_congr fun e he => ?_))).trans hfilter
    simp only [Function.comp_apply, hsame _ (hh.contains_tail he), hsame _ (hh.contains_head he)]

end

end Renames

end TripleGrammar.Graph
