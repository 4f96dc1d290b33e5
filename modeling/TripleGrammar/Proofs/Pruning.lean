import TripleGrammar.Proofs.Assembly
import TripleGrammar.Proofs.Spreading
import TripleGrammar.SortedMap.Lemmas

/-!
# What pruning keeps

Pruning fails at the first default correspondence that does not pair one source node with one target
node. Otherwise it keeps the covered nodes of the domain, and what a path that avoids these joins to
a seed, with the edges between them.
-/

namespace TripleGrammar.Graph

section

variable {α β ε : Type} {f : α → Except ε β} {l : List α}

lemma exists_mapM (hf : ∀ a ∈ l, ∃ b, f a = .ok b) :
    ∃ bs, l.mapM f = .ok bs ∧ ∀ b, b ∈ bs ↔ ∃ a ∈ l, f a = .ok b := by
  induction l with
  | nil => exact ⟨[], rfl, by simp⟩
  | cons a l ih =>
    obtain ⟨b, hb⟩ := hf a List.mem_cons_self
    obtain ⟨bs, hbs, hmem⟩ := ih fun a ha => hf a (List.mem_cons_of_mem _ ha)
    refine ⟨b :: bs, ?_, fun b' => ?_⟩
    · rw [List.mapM_cons, hb, hbs]
      rfl
    · simp [hmem, hb, eq_comm]

/-- The first element at which the function fails decides the error. -/
lemma mapM_eq_error {p : α → Bool} (hp : ∀ a, p a = false → ∃ b, f a = .ok b) {a : α} {e : ε}
    (hfirst : l.find? p = some a) (ha : f a = .error e) : l.mapM f = .error e := by
  induction l with
  | nil => cases hfirst
  | cons x l ih =>
    rw [List.mapM_cons]
    by_cases hx : p x = true
    · rw [List.find?_cons_of_pos hx] at hfirst
      obtain rfl := Option.some.inj hfirst
      rw [ha]
      rfl
    · rw [List.find?_cons_of_neg hx] at hfirst
      obtain ⟨b, hb⟩ := hp x (Bool.eq_false_iff.mpr hx)
      rw [hb, ih hfirst]
      rfl

end

variable {g : Graph} {d : Domain} {c : Node} {id s t : NodeId} {flag : Bool}
  {covered : List NodeId} {m : SortedMap NodeId NodeId}

/-! ### Default correspondences -/

/-- The number of nodes of the domain to which edges run from the node `c`. -/
def linkedCount (g : Graph) (d : Domain) (c : NodeId) : Nat :=
  (g.nodesIn d).countP fun n => g.edges.any fun e => e.tail == c && e.head == n.id

def isPairing (g : Graph) (c : NodeId) : Bool :=
  g.linkedCount .source c == 1 && g.linkedCount .target c == 1

/-- A default correspondence that does not pair one source node with one target node. -/
def unpaired (g : Graph) (c : Node) : Bool :=
  c.domain == .correspondence && c.isDefault && !g.isPairing c.id

lemma length_idsIn_successorsOf (hg : g.WellFormed) (c : NodeId) :
    (Node.idsIn d (g.successorsOf c)).length = g.linkedCount d c := by
  unfold Node.idsIn linkedCount nodesIn
  rw [List.length_map, hg.successorsOf_eq, List.filter_comm, List.countP_eq_length_filter]

lemma pairOf_eq_ok_iff : g.pairOf c = .ok (s, t) ↔
    Node.idsIn .source (g.successorsOf c.id) = [s] ∧
      Node.idsIn .target (g.successorsOf c.id) = [t] := by
  unfold pairOf Node.idsIn
  dsimp only
  split
  next s' t' hs ht => simp [hs, ht]
  next hnone =>
    simp only [reduceCtorEq, List.map_eq_singleton_iff, false_iff]
    rintro ⟨⟨s', hs, -⟩, t', ht, -⟩
    exact hnone s' t' hs ht

lemma exists_pairOf (hg : g.WellFormed) (hpairing : g.isPairing c.id = true) :
    ∃ p, g.pairOf c = .ok p := by
  unfold isPairing at hpairing
  simp only [Bool.and_eq_true, beq_iff_eq, ← length_idsIn_successorsOf hg,
    List.length_eq_one_iff] at hpairing
  obtain ⟨⟨s, hs⟩, t, ht⟩ := hpairing
  exact ⟨(s, t), pairOf_eq_ok_iff.mpr ⟨hs, ht⟩⟩

lemma pairOf_eq_error (hg : g.WellFormed) (hpairing : g.isPairing c.id = false) :
    g.pairOf c = .error (.defaultArity c.id (g.linkedCount .source c.id)
      (g.linkedCount .target c.id)) := by
  unfold isPairing at hpairing
  rw [← length_idsIn_successorsOf hg, ← length_idsIn_successorsOf hg] at hpairing ⊢
  unfold Node.idsIn at hpairing ⊢
  unfold pairOf
  dsimp only
  split
  next s' t' hs ht => simp [hs, ht] at hpairing
  next => simp

/-! ### Partners -/

def defaults (g : Graph) : List Node := (g.nodesIn .correspondence).filter (·.isDefault)

/-- An edge runs to the node, which is in the domain, from a correspondence with or without the
default flag. -/
def Linked (g : Graph) (d : Domain) (flag : Bool) (id : NodeId) : Prop :=
  ∃ c ∈ g.nodesIn .correspondence, c.isDefault = flag ∧
    ∃ e ∈ g.edges, e.tail = c.id ∧ e.head = id ∧ g.domainOf? id = some d

/-- The map gives a partner in another domain to the nodes that default correspondences pair, and
to no others. -/
structure IsPartners (g : Graph) (m : SortedMap NodeId NodeId) : Prop where
  exists_iff : ∀ id, (∃ p, m.get? id = some p) ↔ g.Linked .source true id ∨ g.Linked .target true id
  domain_ne : ∀ id p, m.get? id = some p → g.domainOf? p ≠ g.domainOf? id

lemma find?_defaults (g : Graph) :
    g.defaults.find? (fun c => !g.isPairing c.id) = g.nodes.find? g.unpaired := by
  unfold defaults nodesIn
  rw [List.filter_filter, List.find?_filter]
  congr 1
  funext c
  unfold unpaired
  rw [Bool.eq_iff_iff, decide_eq_true_iff, Bool.and_eq_true, Bool.and_eq_true, Bool.and_eq_true,
    and_comm (a := c.isDefault = true)]

lemma linked_true_iff (hg : g.WellFormed) : g.Linked d true id ↔
    ∃ c ∈ g.defaults, id ∈ Node.idsIn d (g.successorsOf c.id) := by
  unfold Linked defaults
  simp only [hg.mem_idsIn_successorsOf_iff, List.mem_filter, and_assoc]

lemma foldl_insert_pairs (pairs : List (NodeId × NodeId)) :
    pairs.foldl (fun m (s, t) => (m.insert s t).insert t s) ∅ =
      SortedMap.ofList (pairs.flatMap fun (s, t) => [(s, t), (t, s)]) := by
  unfold SortedMap.ofList
  rw [List.foldl_flatMap]
  rfl

lemma mem_entries_iff {pairs : List (NodeId × NodeId)} :
    (s, t) ∈ (pairs.flatMap fun (s, t) => [(s, t), (t, s)]) ↔
      (s, t) ∈ pairs ∨ (t, s) ∈ pairs := by
  rw [List.mem_flatMap]
  constructor
  · rintro ⟨p, hp, hmem⟩
    rcases List.mem_pair.mp hmem with heq | heq
    · obtain ⟨rfl, rfl⟩ := Prod.mk.inj heq
      exact Or.inl hp
    · obtain ⟨rfl, rfl⟩ := Prod.mk.inj heq
      exact Or.inr hp
  · rintro (h | h)
    · exact ⟨_, h, List.mem_cons_self⟩
    · exact ⟨_, h, List.mem_cons_of_mem _ List.mem_cons_self⟩

lemma exists_pair_iff (hg : g.WellFormed) {pairs : List (NodeId × NodeId)}
    (hpaired : ∀ c ∈ g.defaults, ∃ p, g.pairOf c = .ok p)
    (hpairs : ∀ p, p ∈ pairs ↔ ∃ c ∈ g.defaults, g.pairOf c = .ok p)
    (side : NodeId × NodeId → NodeId)
    (hside : ∀ c p, g.pairOf c = .ok p → Node.idsIn d (g.successorsOf c.id) = [side p]) :
    (∃ p ∈ pairs, side p = id) ↔ g.Linked d true id := by
  rw [linked_true_iff hg]
  constructor
  · rintro ⟨p, hp, rfl⟩
    obtain ⟨c, hc, hpair⟩ := (hpairs p).mp hp
    exact ⟨c, hc, by simp [hside c p hpair]⟩
  · rintro ⟨c, hc, hid⟩
    obtain ⟨p, hpair⟩ := hpaired c hc
    rw [hside c p hpair, List.mem_singleton] at hid
    exact ⟨p, (hpairs p).mpr ⟨c, hc, hpair⟩, hid.symm⟩

lemma isPartners_ofList (hg : g.WellFormed) {pairs : List (NodeId × NodeId)}
    (hpaired : ∀ c ∈ g.defaults, ∃ p, g.pairOf c = .ok p)
    (hpairs : ∀ p, p ∈ pairs ↔ ∃ c ∈ g.defaults, g.pairOf c = .ok p) :
    g.IsPartners (SortedMap.ofList (pairs.flatMap fun (s, t) => [(s, t), (t, s)])) := by
  have hsource : ∀ id, g.Linked .source true id ↔ ∃ t, (id, t) ∈ pairs := by
    intro id
    rw [← exists_pair_iff hg hpaired hpairs Prod.fst fun c p h => (pairOf_eq_ok_iff.mp h).1]
    simp
  have htarget : ∀ id, g.Linked .target true id ↔ ∃ s, (s, id) ∈ pairs := by
    intro id
    rw [← exists_pair_iff hg hpaired hpairs Prod.snd fun c p h => (pairOf_eq_ok_iff.mp h).2]
    simp
  have hdomains : ∀ s t, (s, t) ∈ pairs →
      g.domainOf? s = some .source ∧ g.domainOf? t = some .target := by
    intro s t h
    obtain ⟨-, -, -, -, -, -, -, hs⟩ := (hsource s).mpr ⟨t, h⟩
    obtain ⟨-, -, -, -, -, -, -, ht⟩ := (htarget t).mpr ⟨s, h⟩
    exact ⟨hs, ht⟩
  refine ⟨fun id => ?_, fun id p hp => ?_⟩
  · rw [SortedMap.exists_get?_ofList_iff, hsource, htarget, ← exists_or]
    simp only [mem_entries_iff]
  · rcases mem_entries_iff.mp (SortedMap.mem_of_get?_ofList hp) with h | h <;>
      simp [hdomains _ _ h]

lemma partners_eq_error (hg : g.WellFormed) (hfirst : g.nodes.find? g.unpaired = some c) :
    g.partners = .error (.defaultArity c.id (g.linkedCount .source c.id)
      (g.linkedCount .target c.id)) := by
  rw [← find?_defaults] at hfirst
  have herror := pairOf_eq_error hg (c := c) (by simpa using List.find?_some hfirst)
  have hok : ∀ a : Node, (!g.isPairing a.id) = false → ∃ p, g.pairOf a = .ok p :=
    fun a ha => exists_pairOf hg (by simpa using ha)
  unfold partners
  change (g.defaults.mapM g.pairOf >>= _) = _
  rw [mapM_eq_error hok hfirst herror]
  rfl

lemma exists_partners (hg : g.WellFormed) (hpaired : g.nodes.find? g.unpaired = none) :
    ∃ m, g.partners = .ok m ∧ g.IsPartners m := by
  rw [← find?_defaults, List.find?_eq_none] at hpaired
  have hok : ∀ c ∈ g.defaults, ∃ p, g.pairOf c = .ok p :=
    fun c hc => exists_pairOf hg (by simpa using hpaired c hc)
  obtain ⟨pairs, hpairs, hmem⟩ := exists_mapM hok
  refine ⟨_, ?_, isPartners_ofList hg hok hmem⟩
  unfold partners
  change (g.defaults.mapM g.pairOf >>= _) = _
  rw [hpairs, ← foldl_insert_pairs]
  rfl

/-! ### Covered nodes and seeds -/

/-- A node of the domain that a correspondence without the default flag links. -/
def Covered (g : Graph) (d : Domain) : NodeId → Prop := g.Linked d false

/-- A node of the domain that a default correspondence links and that is not covered. -/
def IsSeed (g : Graph) (d : Domain) (id : NodeId) : Prop :=
  d ≠ .correspondence ∧ g.Linked d true id ∧ ¬g.Covered d id

lemma mem_ids_nodesIn_iff (hg : g.WellFormed) :
    id ∈ (g.nodesIn d).map (·.id) ↔ g.domainOf? id = some d := by
  rw [hg.domainOf?_iff]
  unfold nodesIn
  simp only [List.mem_map, List.mem_filter, beq_iff_eq]
  constructor
  · rintro ⟨n, ⟨hn, hd⟩, hid⟩
    exact ⟨n, hn, hid, hd⟩
  · rintro ⟨n, hn, hid, hd⟩
    exact ⟨n, ⟨hn, hd⟩, hid⟩

lemma Linked.domainOf?_eq (h : g.Linked d flag id) : g.domainOf? id = some d := by
  obtain ⟨-, -, -, -, -, -, -, hd⟩ := h
  exact hd

lemma mem_coveredIds_iff (hg : g.WellFormed) : id ∈ g.coveredIds d ↔ g.Covered d id := by
  unfold coveredIds Covered Linked
  simp only [List.mem_filter, mem_ids_nodesIn_iff hg, List.contains_iff_mem, List.mem_flatMap,
    hg.mem_ids_successorsOf_iff, Bool.not_eq_true']
  constructor
  · rintro ⟨hd, c, ⟨hc, hflag⟩, e, he, ht, hh⟩
    exact ⟨c, hc, hflag, e, he, ht, hh, hd⟩
  · rintro ⟨c, hc, hflag, e, he, ht, hh, hd⟩
    exact ⟨hd, c, ⟨hc, hflag⟩, e, he, ht, hh⟩

lemma mem_seedIds_iff (hg : g.WellFormed) (hm : g.IsPartners m) :
    id ∈ g.seedIds d m (g.coveredIds d) ↔ g.IsSeed d id := by
  unfold seedIds IsSeed
  rw [List.mem_filter, mem_ids_nodesIn_iff hg, ← mem_coveredIds_iff hg]
  simp only [Bool.and_eq_true, Bool.not_eq_true', List.contains_eq_mem, decide_eq_false_iff_not]
  constructor
  · rintro ⟨hd, hcovered, hpartner⟩
    obtain ⟨p, hp⟩ : ∃ p, m.get? id = some p := by
      cases hget : m.get? id with
      | some p => exact ⟨p, rfl⟩
      | none =>
        rw [hget] at hpartner
        cases hpartner
    rcases (hm.exists_iff id).mp ⟨p, hp⟩ with hlinked | hlinked <;>
      obtain rfl := Option.some.inj (hd.symm.trans hlinked.domainOf?_eq) <;>
      exact ⟨by simp, hlinked, hcovered⟩
  · rintro ⟨hne, hlinked, hcovered⟩
    have hd := hlinked.domainOf?_eq
    obtain ⟨p, hp⟩ : ∃ p, m.get? id = some p := by
      rw [hm.exists_iff]
      cases d with
      | source => exact Or.inl hlinked
      | target => exact Or.inr hlinked
      | correspondence => exact absurd rfl hne
    -- the partner lies in another domain, where nothing is covered
    have hpartner : p ∉ g.coveredIds d := by
      intro hmem
      rw [mem_coveredIds_iff hg] at hmem
      exact hm.domain_ne id p hp ((Linked.domainOf?_eq hmem).trans hd.symm)
    rw [hp]
    exact ⟨hd, hcovered, by simpa using hpartner⟩

/-! ### What is kept -/

/-- The node is covered, or a path that avoids the covered nodes joins it to a seed, in one
direction or the other. -/
def Kept (g : Graph) (d : Domain) (id : NodeId) : Prop :=
  g.Covered d id ∨ ∃ s, g.IsSeed d s ∧
    (g.Reaches (g.Covered d) s id ∨ g.Reaches (g.Covered d) id s)

/-- The test by which pruning decides on a node. -/
def keeps (g : Graph) (covered seeds : List NodeId) (id : NodeId) : Bool :=
  covered.contains id || (g.reachable covered seeds).contains id ||
    (g.reverse.reachable covered seeds).contains id

lemma keeps_iff (hg : g.WellFormed) (hm : g.IsPartners m) :
    g.keeps (g.coveredIds d) (g.seedIds d m (g.coveredIds d)) id = true ↔ g.Kept d id := by
  have hseeds : ∀ s ∈ g.seedIds d m (g.coveredIds d), s ∉ g.coveredIds d := by
    intro s hs
    rw [mem_coveredIds_iff hg]
    exact ((mem_seedIds_iff hg hm).mp hs).2.2
  unfold keeps Kept
  simp only [Bool.or_eq_true, List.contains_iff_mem, mem_coveredIds_iff hg,
    mem_reachable_iff hg hseeds, mem_reachable_iff hg.reverse hseeds,
    reaches_reverse hg, mem_seedIds_iff hg hm, or_assoc, and_or_left, exists_or]

lemma prune_eq_error (hg : g.WellFormed) (hfirst : g.nodes.find? g.unpaired = some c) :
    g.prune d = .error (.defaultArity c.id (g.linkedCount .source c.id)
      (g.linkedCount .target c.id)) := by
  unfold prune
  rw [partners_eq_error hg hfirst]
  rfl

lemma ends_filter (hg : g.WellFormed) (keep : NodeId → Bool) :
    ∀ e ∈ g.edges.filter (fun e => keep e.tail && keep e.head),
      e.tail ∈ (g.nodes.filter fun n => keep n.id).map (·.id) ∧
        e.head ∈ (g.nodes.filter fun n => keep n.id).map (·.id) := by
  have hmem : ∀ id ∈ g.nodes.map (·.id), keep id = true →
      id ∈ (g.nodes.filter fun n => keep n.id).map (·.id) := by
    intro id hid hkeep
    obtain ⟨n, hn, rfl⟩ := List.mem_map.mp hid
    exact List.mem_map_of_mem (List.mem_filter.mpr ⟨hn, hkeep⟩)
  intro e he
  obtain ⟨he, hkeep⟩ := List.mem_filter.mp he
  rw [Bool.and_eq_true] at hkeep
  exact ⟨hmem _ (hg.tail_mem e he) hkeep.1, hmem _ (hg.head_mem e he) hkeep.2⟩

/-- What pruning leaves is assembled from the nodes and edges that are kept. -/
lemma exists_prune_eq (hg : g.WellFormed) (hpaired : g.nodes.find? g.unpaired = none) :
    ∃ p, g.prune d = .ok p ∧ p.graph.name = g.name ∧
      ∃ keep : NodeId → Bool, (∀ id, keep id = true ↔ g.Kept d id) ∧
        ∃ h, ofParts (g.nodes.filter fun n => keep n.id)
          (g.edges.filter fun e => keep e.tail && keep e.head) = .ok h ∧
          p.graph.nodes = h.nodes ∧ p.graph.edges = h.edges := by
  obtain ⟨m, hm, hpartners⟩ := exists_partners hg hpaired
  let keep := g.keeps (g.coveredIds d) (g.seedIds d m (g.coveredIds d))
  obtain ⟨h, hparts⟩ : ∃ h, ofParts (g.nodes.filter fun n => keep n.id)
      (g.edges.filter fun e => keep e.tail && keep e.head) = .ok h :=
    ⟨_, ofParts_eq (fun n hn => hg.default_mem n (List.mem_filter.mp hn).1) (ends_filter hg keep)⟩
  refine ⟨{ graph := { h with name := g.name }, covered := (g.coveredIds d).length,
            seeds := (g.seedIds d m (g.coveredIds d)).length,
            kept := (g.nodes.filter fun n => keep n.id).length }, ?_, rfl, keep,
    fun id => keeps_iff hg hpartners, h, hparts, rfl, rfl⟩
  unfold prune
  rw [hm]
  dsimp only [bind, Except.bind]
  split
  next h' hok =>
    obtain rfl := Except.ok.inj (hparts.symm.trans hok)
    rfl
  next e herror => cases hparts.symm.trans herror

lemma exists_prune (hg : g.WellFormed) (hpaired : g.nodes.find? g.unpaired = none) :
    ∃ p, g.prune d = .ok p ∧ p.graph.name = g.name ∧
      ∃ keep : NodeId → Bool, (∀ id, keep id = true ↔ g.Kept d id) ∧
        p.graph.nodes.Perm (g.nodes.filter fun n => keep n.id) ∧
        p.graph.edges = g.edges.filter fun e => keep e.tail && keep e.head := by
  obtain ⟨p, hp, hname, keep, hkeep, h, hparts, hnodes, hedges⟩ := exists_prune_eq hg hpaired
  obtain ⟨h', hparts', hperm, hedges'⟩ := exists_ofParts
    (hg.nodup.sublist (List.filter_sublist.map _))
    (fun n hn => hg.default_mem n (List.mem_filter.mp hn).1) (ends_filter hg keep)
  obtain rfl := Except.ok.inj (hparts.symm.trans hparts')
  exact ⟨p, hp, hname, keep, hkeep, hnodes ▸ hperm, hedges.trans hedges'⟩

/-- Pruning fails exactly if a default correspondence does not pair two nodes, and reports the first
such node. Otherwise it keeps the nodes that it is to keep and the edges between them. -/
theorem prune_keeps_exactly (hg : g.WellFormed) (d : Domain) :
    ((∃ err, g.prune d = .error err) ↔ ∃ c ∈ g.nodes, g.unpaired c = true) ∧
      match g.nodes.find? g.unpaired with
      | some c => g.prune d = .error (.defaultArity c.id (g.linkedCount .source c.id)
          (g.linkedCount .target c.id))
      | none => ∃ p, g.prune d = .ok p ∧ p.graph.name = g.name ∧
          ∃ keep : NodeId → Bool, (∀ id, keep id = true ↔ g.Kept d id) ∧
            p.graph.nodes.Perm (g.nodes.filter fun n => keep n.id) ∧
            p.graph.edges = g.edges.filter fun e => keep e.tail && keep e.head := by
  cases hfirst : g.nodes.find? g.unpaired with
  | some c =>
    have herror := prune_eq_error hg (d := d) hfirst
    have hc : ∃ c ∈ g.nodes, g.unpaired c = true :=
      ⟨c, List.mem_of_find?_eq_some hfirst, List.find?_some hfirst⟩
    exact ⟨iff_of_true ⟨_, herror⟩ hc, herror⟩
  | none =>
    have hok := exists_prune hg (d := d) hfirst
    refine ⟨iff_of_false ?_ ?_, hok⟩
    · rintro ⟨err, herror⟩
      obtain ⟨p, hp, -⟩ := hok
      rw [herror] at hp
      cases hp
    · rintro ⟨c, hc, hunpaired⟩
      exact List.find?_eq_none.mp hfirst c hc hunpaired

/-- A class with a table as its partner keeps the link to that table and the class that it refers
to, but nothing behind a covered class. With a second table the link is no pair any more. -/
theorem prune_keeps_exactly_classes :
    let cls (id : UInt64) : Node := { id := ⟨id⟩, kind := "Class", domain := .source }
    let table (id : UInt64) : Node := { id := ⟨id⟩, kind := "Table", domain := .target }
    let records : List Node :=
      [cls 0, cls 1, cls 2, cls 3, table 4, table 5,
        { id := ⟨6⟩, kind := "Link", domain := .correspondence, isDefault := true },
        { id := ⟨7⟩, kind := "Link", domain := .correspondence }]
    let edges : List Edge :=
      [{ tail := ⟨6⟩, head := ⟨0⟩ }, { tail := ⟨6⟩, head := ⟨4⟩ }, { tail := ⟨7⟩, head := ⟨2⟩ },
        { tail := ⟨0⟩, head := ⟨1⟩ }, { tail := ⟨1⟩, head := ⟨2⟩ }, { tail := ⟨2⟩, head := ⟨3⟩ }]
    let host := (assemble records edges).after ∅
    let broken := (assemble records ({ tail := ⟨6⟩, head := ⟨5⟩ } :: edges)).after ∅
    host.WellFormed ∧ broken.WellFormed ∧ (∃ err, broken.prune .source = .error err) ∧
      ∃ p, host.prune .source = .ok p ∧ p.graph.nodes.map (·.id) = [⟨6⟩, ⟨0⟩, ⟨1⟩, ⟨2⟩] ∧
        ∃ keep : NodeId → Bool, (∀ id, keep id = true ↔ host.Kept .source id) ∧
          p.graph.edges = host.edges.filter fun e => keep e.tail && keep e.head := by
  intro cls table records edges host broken
  have hhost : host.WellFormed := assemble_keeps_wellFormed _ _ ∅ (wellFormed_bare none)
  have hbroken : broken.WellFormed := assemble_keeps_wellFormed _ _ ∅ (wellFormed_bare none)
  have hunpaired : ∃ c ∈ broken.nodes, broken.unpaired c = true := by decide +kernel
  have hpaired : host.nodes.find? host.unpaired = none := by decide +kernel
  have hprune := prune_keeps_exactly hhost .source
  rw [hpaired] at hprune
  obtain ⟨-, p, hp, -, keep, hkeep, -, hedges⟩ := hprune
  have hids : (host.prune .source).toOption.map (·.graph.nodes.map (·.id)) =
      some [⟨6⟩, ⟨0⟩, ⟨1⟩, ⟨2⟩] := by decide +kernel
  rw [hp] at hids
  exact ⟨hhost, hbroken, (prune_keeps_exactly hbroken .source).1.mpr hunpaired, p, hp,
    Option.some.inj hids, keep, hkeep, hedges⟩

end TripleGrammar.Graph
