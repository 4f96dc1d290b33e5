import TripleGrammar.Proofs.Links
import Mathlib.Data.Finset.Powerset
import Mathlib.Data.Finset.Prod

/-!
# Derivations that end

If every rule that adds something links all that it reads, and no rule draws edges from a link that
it finds into the domain, then no rule fires twice at the same nodes of the domain. There are only
so many sets of these nodes, so the derivation ends.
-/

namespace TripleGrammar

/-- The nodes of the domain that the rule is fired at. -/
def Site.reads (d : Domain) (s : Site) : List NodeId := s.host.boundIn d s.found

namespace Rule

variable {r : Rule} {d : Domain} {host : Graph} {found bound : Match} {nodes : List Node}
  {edges : List Edge}

/-- A rule has nothing to add exactly if a firing at a match adds nothing. -/
lemma Adds.isEmpty_iff (h : r.Adds d host found nodes edges bound) :
    (⟨nodes.length, edges.length⟩ : Firing).isEmpty = true ↔ r.AddsNothing d := by
  have hnodes := h.instances.length_eq
  have hedges := h.placed.length_eq
  unfold Firing.isEmpty AddsNothing
  simp only [Bool.and_eq_true, beq_iff_eq]
  rw [← hnodes, ← hedges, List.length_eq_zero_iff, List.length_eq_zero_iff]

end Rule

namespace Grammar

variable {G : Grammar} {d : Domain} {host : Graph} {p q q' : Progress} {r : Rule} {found : Match}

/-! ### A single firing -/

/-- The rule that fires in a pass fires at a match that repeats no link of the host, and it has
something to add there. -/
lemma exists_adds_of_pass (hG : ∀ k, (G.strategy k).Sound)
    (hrules : ∀ r ∈ G.rules, r.graph.WellFormed) (hq : q.host.WellFormed)
    (h : G.pass d G.rules q.beginPass = .fired r found q') :
    r ∈ G.rules ∧ q.host.Fits r.graph d found ∧
      Graph.repeatsLinks (q.host.links d) r.graph.createdLinkKinds (q.host.boundIn d found) =
        false ∧
      ¬r.AddsNothing d ∧
      ∃ nodes edges bound, q'.host = q.host.extend nodes edges ∧
        r.Adds d q.host found nodes edges bound := by
  have hidle : ∀ r ∈ G.rules, ∀ p q f, p.host.WellFormed → f.isEmpty = true →
      G.Tries d r p (.ok f) q → q.host = p.host :=
    fun r hr p q f hp hf htries => host_eq_of_isEmpty hG (hrules r hr) hp hf htries
  have hbegin : q.beginPass.host.WellFormed := hq
  obtain ⟨hr, p, hhost, rfl, f, hf, htries⟩ := pass_fired hidle hbegin h
  have hp : p.host = q.host := hhost
  have hwf : p.host.WellFormed := hp ▸ hq
  obtain ⟨hfits, hnew, hcases⟩ := htries.cases hG (hrules r hr) hwf
  rcases hcases with ⟨id, herror, -⟩ | ⟨nodes, edges, bound, hok, hext, hadds⟩
  · cases herror
  · cases hok
    have hadding : ¬r.AddsNothing d := by
      rw [← hadds.isEmpty_iff, hf]
      exact Bool.false_ne_true
    rw [← hp]
    exact ⟨hr, hfits, hnew, hadding, nodes, edges, bound, hext, hadds⟩

/-! ### The sites of a run -/

/-- Every rule that adds something links all that it reads, and no rule adds to what the links that
it finds join. -/
def LinksReading (G : Grammar) (d : Domain) : Prop :=
  ∀ r ∈ G.rules, (r.AddsNothing d ∨ r.LinksReading d) ∧ r.SparesLinks d

instance : Decidable (G.LinksReading d) := inferInstanceAs (Decidable (∀ r ∈ _, _))

/-- All that is known of the sites at which rules have fired: each is at nodes that `host` has in
the domain, a further firing there would repeat links, and no two are alike. -/
structure Spent (G : Grammar) (d : Domain) (host : Graph) (sites : List Site) (q : Progress) :
    Prop where
  mem : ∀ s ∈ sites, s.rule ∈ G.rules
  reads : ∀ s ∈ sites, ∀ id ∈ s.reads d, id ∈ (host.nodesIn d).map (·.id)
  repeats : ∀ s ∈ sites,
    Graph.repeatsLinks (q.host.links d) s.rule.graph.createdLinkKinds (s.reads d) = true
  pairwise : sites.Pairwise fun s t =>
    s.rule = t.rule → ¬NodeId.sameMembers (s.reads d) (t.reads d) = true

lemma reads_subset (hext : host.Extends d q.host) (hq : q.host.WellFormed)
    (hrule : r.graph.WellFormed) (hfits : q.host.Fits r.graph d found) :
    ∀ id ∈ q.host.boundIn d found, id ∈ (host.nodesIn d).map (·.id) := by
  intro id hid
  obtain ⟨n, hn, hget⟩ := (hfits.mem_boundIn_iff hq hrule).mp hid
  obtain ⟨hmem, hdomain⟩ := List.mem_filter.mp hn
  obtain ⟨m, hm, rfl, -, hsame⟩ := hfits.exists_host_node hrule hmem hget
  rw [← hext.nodesIn_eq]
  refine List.mem_map_of_mem (List.mem_filter.mpr ⟨hm, ?_⟩)
  rw [hsame]
  exact hdomain

lemma Spent.fired {sites : List Site} (h : G.Spent d host sites q)
    (hG : ∀ k, (G.strategy k).Sound) (hrules : ∀ r ∈ G.rules, r.graph.WellFormed)
    (hlinks : G.LinksReading d) (hq : q.host.WellFormed) (hext : host.Extends d q.host)
    (hpass : G.pass d G.rules q.beginPass = .fired r found q') :
    G.Spent d host (sites ++ [⟨q.host, r, found⟩]) q' := by
  obtain ⟨hr, hfits, hnew, hadding, nodes, edges, bound, hhost, hadds⟩ :=
    exists_adds_of_pass hG hrules hq hpass
  obtain ⟨hreads, hspares⟩ := hlinks r hr
  have hrule := hrules r hr
  have hlinked : r.LinksReading d := hreads.resolve_left hadding
  refine ⟨?_, ?_, ?_, ?_⟩
  · intro s hs
    rcases List.mem_append.mp hs with hs | hs
    · exact h.mem s hs
    · obtain rfl := List.mem_singleton.mp hs
      exact hr
  · intro s hs
    rcases List.mem_append.mp hs with hs | hs
    · exact h.reads s hs
    · obtain rfl := List.mem_singleton.mp hs
      exact reads_subset hext hq hrule hfits
  · intro s hs
    rw [hhost]
    rcases List.mem_append.mp hs with hs | hs
    · exact hadds.repeatsLinks_extend hrule hq hfits hspares (h.repeats s hs)
    · obtain rfl := List.mem_singleton.mp hs
      exact hadds.repeatsLinks_boundIn hrule hq hfits hlinked
  · rw [List.pairwise_append]
    refine ⟨h.pairwise, List.pairwise_singleton _ _, ?_⟩
    intro s hs t ht hsame hmembers
    obtain rfl := List.mem_singleton.mp ht
    -- the links that the earlier firing left would have made the search pass over this match
    have hrepeats := h.repeats s hs
    rw [hsame, Graph.repeatsLinks_congr _ (NodeId.sameMembers_iff.mp hmembers)] at hrepeats
    exact Bool.false_ne_true (hnew.symm.trans hrepeats)

lemma Leads.spent {sites : List Site} (h : G.Leads d p sites q)
    (hG : ∀ k, (G.strategy k).Sound) (hrules : ∀ r ∈ G.rules, r.graph.WellFormed)
    (hlinks : G.LinksReading d) (hp : p.host.WellFormed) : G.Spent d p.host sites q := by
  induction h with
  | start => exact ⟨by simp, by simp, by simp, List.Pairwise.nil⟩
  | fired before hpass ih =>
    have hkeep := @firings_extend G d hG hrules p.host
    obtain ⟨hq, hext⟩ := before.keeps hkeep ⟨hp, Graph.Extends.refl d p.host⟩
    exact ih.fired hG hrules hlinks hq hext hpass

/-! ### Counting the sites -/

/-- There are no more sites than pairs of a rule and a set of nodes of the domain. -/
lemma Spent.length_le {sites : List Site} (h : G.Spent d host sites q) :
    sites.length ≤ G.rules.length * 2 ^ (host.nodesIn d).length := by
  classical
  let key : Site → Rule × Finset NodeId := fun s => (s.rule, (s.reads d).toFinset)
  let sets := (((host.nodesIn d).map (·.id)).toFinset).powerset
  have hnodup : (sites.map key).Nodup := by
    apply List.pairwise_map.mpr
    apply h.pairwise.imp
    intro s t hst heq
    obtain ⟨hrule, hreads⟩ := Prod.mk.inj heq
    apply hst hrule
    rw [NodeId.sameMembers_iff]
    intro id
    rw [← List.mem_toFinset, hreads, List.mem_toFinset]
  have hsub : (sites.map key).toFinset ⊆ G.rules.toFinset ×ˢ sets := by
    intro k hk
    obtain ⟨s, hs, rfl⟩ := List.mem_map.mp (List.mem_toFinset.mp hk)
    rw [Finset.mem_product, List.mem_toFinset, Finset.mem_powerset]
    refine ⟨h.mem s hs, fun id hid => ?_⟩
    exact List.mem_toFinset.mpr (h.reads s hs id (List.mem_toFinset.mp hid))
  have hsets : sets.card ≤ 2 ^ (host.nodesIn d).length := by
    rw [Finset.card_powerset]
    apply Nat.pow_le_pow_right (by omega)
    have hle := List.toFinset_card_le ((host.nodesIn d).map (·.id))
    rwa [List.length_map] at hle
  calc sites.length = (sites.map key).toFinset.card := by
        rw [List.toFinset_card_of_nodup hnodup, List.length_map]
    _ ≤ (G.rules.toFinset ×ˢ sets).card := Finset.card_le_card hsub
    _ = G.rules.toFinset.card * sets.card := Finset.card_product _ _
    _ ≤ G.rules.length * 2 ^ (host.nodesIn d).length :=
        Nat.mul_le_mul (List.toFinset_card_le _) hsets

/-- A grammar whose rules link what they read never fires a rule twice at the same nodes of the
domain, and a derivation ends, after no more passes than there are pairs of a rule and a set of
these nodes, and one. -/
theorem derivations_end_of_linksReading (G : Grammar) (reads writes : Domain) (host : Graph)
    (ids : IdSupply) (hG : ∀ k, G.strategy k = .backtracking)
    (hrules : ∀ r ∈ G.rules, r.graph.WellFormed) (hhost : host.WellFormed)
    (hlinks : G.LinksReading reads) :
    (∀ sites q, G.Leads reads { host, ids } sites q → sites.Pairwise fun s t =>
      s.rule = t.rule → ¬NodeId.sameMembers (s.reads reads) (t.reads reads) = true) ∧
    ∃ o, (∀ fuel, G.rules.length * 2 ^ (host.nodesIn reads).length + 1 ≤ fuel →
        G.derive reads writes fuel host ids = some o) ∧
      ∀ t, o.result = .ok t →
        t.passes ≤ G.rules.length * 2 ^ (host.nodesIn reads).length + 1 := by
  have hsound : ∀ k, (G.strategy k).Sound := by
    intro k
    rw [hG k]
    exact Strategy.backtracking_sound
  have hspent : ∀ sites q, G.Leads reads { host, ids } sites q →
      G.Spent reads host sites q :=
    fun sites q hq => hq.spent hsound hrules hlinks hhost
  refine ⟨fun sites q hq => (hspent sites q hq).pairwise, ?_⟩
  obtain ⟨ending, q, hpasses, hrun⟩ :=
    run_of_bounded fun sites q hq => (hspent sites q hq).length_le
  have hle : q.passes ≤ G.rules.length * 2 ^ (host.nodesIn reads).length + 1 := by
    change q.passes ≤ 0 + _ + 1 at hpasses
    omega
  obtain ⟨o, hderive, hresult⟩ := exists_outcome G reads writes host ids ending q
  refine ⟨o, fun fuel hfuel => hderive fuel (hrun fuel hfuel), fun t ht => ?_⟩
  rw [hresult t ht]
  exact hle

/-- An attribute is linked to a column once, so for two attributes five passes are enough. -/
theorem derivations_end_of_linksReading_columns :
    let attr : Node := { id := ⟨0⟩, kind := "Attribute", domain := .source, action := some .create }
    let column : Node := { id := ⟨1⟩, kind := "Column", domain := .target, action := some .create }
    let link : Node :=
      { id := ⟨2⟩, kind := "Link", domain := .correspondence, action := some .create }
    let g := (Graph.assemble [attr, column, link]
      [{ tail := ⟨2⟩, head := ⟨0⟩, action := some .create },
       { tail := ⟨2⟩, head := ⟨1⟩, action := some .create }]).after ∅
    let r : Rule := { name := "Axiom", graph := g, tagged := by decide +kernel }
    let G : Grammar := { rules := [r] }
    let host := (Graph.assemble
      [{ id := ⟨5⟩, kind := "Attribute", domain := .source },
       { id := ⟨6⟩, kind := "Attribute", domain := .source }] []).after ∅
    (∀ k, G.strategy k = .backtracking) ∧ (∀ r ∈ G.rules, r.graph.WellFormed) ∧
      host.WellFormed ∧ G.LinksReading .source ∧
      ∃ o, ∀ fuel, 5 ≤ fuel →
        G.derive .source .target fuel host { next := ⟨7⟩ } = some o := by
  intro attr column link g r G host
  have hg : g.WellFormed := Graph.assemble_keeps_wellFormed _ _ ∅ (Graph.wellFormed_bare none)
  have hrules : ∀ r ∈ G.rules, r.graph.WellFormed := by
    intro r' hr'
    obtain rfl := List.mem_singleton.mp hr'
    exact hg
  have hhost : host.WellFormed :=
    Graph.assemble_keeps_wellFormed _ _ ∅ (Graph.wellFormed_bare none)
  have hlinks : G.LinksReading .source := by decide +kernel
  have hbound : G.rules.length * 2 ^ (host.nodesIn .source).length + 1 = 5 := by decide +kernel
  obtain ⟨-, o, hderive, -⟩ := derivations_end_of_linksReading G .source .target host
    { next := ⟨7⟩ } (fun _ => rfl) hrules hhost hlinks
  rw [hbound] at hderive
  exact ⟨fun _ => rfl, hrules, hhost, hlinks, o, hderive⟩

end Grammar

end TripleGrammar
