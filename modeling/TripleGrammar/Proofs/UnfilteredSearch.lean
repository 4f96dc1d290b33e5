import TripleGrammar.Proofs.Matches
import TripleGrammar.Proofs.ReachableGraphs
import TripleGrammar.Proofs.Renamings

/-!
# Searches that are told nothing of labels

The search may leave aside at once the nodes on which a pattern node cannot be placed, or be told
nothing of them and leave their sorting out to those who ask. Both come to the same: what is shown
in the first case is what remains of the second when the assignments with other labels are dropped,
in the same order. So matches, passed over embeddings and whole derivations do not depend on it.
-/

namespace TripleGrammar

namespace Backtracking

variable {host pattern : BitMatrix}

/-- Lists in lexicographic order are told apart by their members. -/
lemma eq_of_lex {p h : Nat} {fs gs : List (Fin p → Fin h)}
    (hfs : fs.Pairwise fun f g => toLex f < toLex g)
    (hgs : gs.Pairwise fun f g => toLex f < toLex g) (hmem : ∀ f, f ∈ fs ↔ f ∈ gs) : fs = gs := by
  have hsorted : fs.map toLex = gs.map toLex := by
    apply List.Pairwise.eq_of_mem_iff (List.pairwise_map.mpr hfs) (List.pairwise_map.mpr hgs)
    intro f
    obtain ⟨f, rfl⟩ := toLex.surjective f
    rw [List.mem_map_of_injective toLex.injective, List.mem_map_of_injective toLex.injective, hmem]
  exact List.map_injective_iff.mpr toLex.injective hsorted

/-- Of all assignments, those that place each node on a compatible one are shown, in order. -/
theorem embeddings_eq_filter (hhost : host.rows = host.cols)
    (hpattern : pattern.rows = pattern.cols) (compatible : Nat → Nat → Bool) :
    Strategy.backtracking.embeddings host pattern compatible =
      (Strategy.backtracking.unfiltered.embeddings host pattern compatible).filter
        fun m => m.ones.all fun (i, j) => compatible i j := by
  obtain ⟨fs, hfs, hlex, heq⟩ := exists_embeddings_eq hhost hpattern compatible
  obtain ⟨gs, hgs, hlex', heq'⟩ := exists_embeddings_eq hhost hpattern fun _ _ => true
  change _ = (Strategy.backtracking.embeddings host pattern fun _ _ => true).filter _
  rw [heq, heq', List.filter_map]
  refine congrArg _ (eq_of_lex hlex (hlex'.filter _) fun f => ?_)
  have hheeds : ((BitMatrix.ofPlacing f).ones.all fun (i, j) => compatible i j) = true ↔
      ∀ i : Fin pattern.rows, compatible i (f i) = true := by
    rw [BitMatrix.ones_ofPlacing]
    simp [placedPairs]
  rw [List.mem_filter, hfs, hgs]
  refine Iff.trans ?_ (and_congr_right fun _ => hheeds.symm)
  exact ⟨fun h => ⟨⟨h.injective, h.edge, fun _ => rfl⟩, h.compatible⟩,
    fun h => ⟨h.1.injective, h.1.edge, h.2⟩⟩

end Backtracking

/-! ### Those who ask -/

namespace Graph

variable {g h host rule pattern : Graph} {d : Domain}

lemma filter_agrees_unfiltered (hhost : host.WellFormed) (hpattern : pattern.WellFormed) :
    (Strategy.backtracking.unfiltered.embeddings host.adjacency pattern.adjacency
        (host.labelsAgree pattern)).filter (host.agrees pattern) =
      (Strategy.backtracking.embeddings host.adjacency pattern.adjacency
        (host.labelsAgree pattern)).filter (host.agrees pattern) := by
  rw [Backtracking.embeddings_eq_filter hhost.rows_eq_cols hpattern.rows_eq_cols,
    List.filter_filter]
  exact List.filter_congr fun m _ => (Bool.and_self (host.agrees pattern m)).symm

theorem searchMatch_unfiltered (hhost : host.WellFormed) (hrule : rule.WellFormed) (d : Domain) :
    host.searchMatch rule d Strategy.backtracking.unfiltered =
      host.searchMatch rule d .backtracking := by
  have hpattern := (isPart_context hrule d).wellFormed
  unfold searchMatch
  dsimp only
  rw [Strategy.search_eq, Strategy.search_eq, value_visitEach_considerMatch,
    value_visitEach_considerMatch, filter_agrees_unfiltered hhost hpattern]

theorem isIsomorphicTo_unfiltered (hg : g.WellFormed) (hh : h.WellFormed) :
    g.isIsomorphicTo h Strategy.backtracking.unfiltered = g.isIsomorphicTo h := by
  unfold isIsomorphicTo
  rw [Strategy.search_eq, Strategy.search_eq, value_visitEach_considerRenaming,
    value_visitEach_considerRenaming,
    Backtracking.embeddings_eq_filter hg.rows_eq_cols hh.rows_eq_cols, List.any_filter]
  -- an assignment that brings `h` onto `g` agrees with the flags
  unfold brings
  simp only [← Bool.and_assoc, Bool.and_self]

end Graph

/-! ### Derivations -/

namespace Grammar

variable {G : Grammar} {d : Domain} {S : Nat → Strategy} {p q : Progress} {r : Rule}
  {rules : List Rule} {sites : List Site}

/-- With the strategies `S` every search for a rule would come to the same. -/
def SearchesAlike (G : Grammar) (d : Domain) (S : Nat → Strategy) : Prop :=
  ∀ k, ∀ r ∈ G.rules, ∀ host : Graph, host.WellFormed →
    host.searchMatch r.graph d (S k) = host.searchMatch r.graph d (G.strategy k)

section

variable (h : G.SearchesAlike d S)
include h

lemma attempt_eq_of_searchesAlike (hr : r ∈ G.rules) (hp : p.host.WellFormed) :
    { G with strategy := S }.attempt d r p = G.attempt d r p := by
  unfold attempt
  rw [h p.searches r hr p.host hp]

lemma pass_eq_of_searchesAlike (hrules : rules ⊆ G.rules) (hp : p.host.WellFormed) :
    { G with strategy := S }.pass d rules p = G.pass d rules p := by
  induction rules generalizing p with
  | nil => rfl
  | cons r rules ih =>
    obtain ⟨hr, hrest⟩ := List.cons_subset.mp hrules
    have hkeep := attempt_keeps (G.wellFormed_firings d) hr hp
    unfold pass
    rw [attempt_eq_of_searchesAlike h hr hp]
    cases hattempt : G.attempt d r p with
    | idle p' =>
      rw [hattempt] at hkeep
      exact ih hrest hkeep
    | fired found p' => rfl
    | failed e p' => rfl

lemma run_eq_of_searchesAlike (hp : p.host.WellFormed) (fuel : Nat) :
    { G with strategy := S }.run d fuel p = G.run d fuel p := by
  induction fuel generalizing p with
  | zero => rfl
  | succ fuel ih =>
    have hkeep := pass_keeps (G.wellFormed_firings d) (List.Subset.refl _) (p := p.beginPass) hp
    unfold run
    rw [pass_eq_of_searchesAlike h (List.Subset.refl _) (p := p.beginPass) hp]
    cases hpass : G.pass d G.rules p.beginPass with
    | fired r found p' =>
      rw [hpass] at hkeep
      exact ih hkeep
    | ended ending p' => rfl

lemma leads_iff_of_searchesAlike (hp : p.host.WellFormed) :
    { G with strategy := S }.Leads d p sites q ↔ G.Leads d p sites q := by
  constructor
  · intro hq
    induction hq with
    | start => exact .start
    | @fired sites q q' r found _ hpass ih =>
      have hq : q.host.WellFormed := ih.keeps (G.wellFormed_firings d) hp
      rw [pass_eq_of_searchesAlike h (List.Subset.refl _) (p := q.beginPass) hq] at hpass
      exact ih.fired hpass
  · intro hq
    induction hq with
    | start => exact .start
    | @fired sites q q' r found hbefore hpass ih =>
      have hq : q.host.WellFormed := hbefore.keeps (G.wellFormed_firings d) hp
      rw [← pass_eq_of_searchesAlike h (List.Subset.refl _) (p := q.beginPass) hq] at hpass
      exact ih.fired hpass

end

lemma derive_eq_of_searchesAlike {reads : Domain} {host : Graph} (h : G.SearchesAlike reads S)
    (hhost : host.WellFormed) (writes : Domain) (fuel : Nat) (ids : IdSupply) :
    { G with strategy := S }.derive reads writes fuel host ids =
      G.derive reads writes fuel host ids := by
  unfold derive
  rw [run_eq_of_searchesAlike h (p := { host, ids }) hhost]
  rfl

/-- Whether the backtracking search heeds labels makes no difference to what is found: a search for
a rule ends with the same match and passes over the same embeddings, the test for isomorphism has
the same result, and a derivation fires the same rules at the same matches in the same passes, with
the same outcome and the same events on the way. -/
theorem unfiltered_search_agrees {host : Graph} (hhost : host.WellFormed) :
    (∀ (rule : Graph) (d : Domain), rule.WellFormed →
      host.searchMatch rule d Strategy.backtracking.unfiltered =
        host.searchMatch rule d .backtracking) ∧
    (∀ g : Graph, g.WellFormed →
      host.isIsomorphicTo g Strategy.backtracking.unfiltered = host.isIsomorphicTo g) ∧
    ∀ (rules : List Rule) (policy : Policy) (reads : Domain) (ids : IdSupply),
      (∀ r ∈ rules, r.graph.WellFormed) →
      let G : Grammar := { rules, policy }
      let G' : Grammar := { G with strategy := fun _ => Strategy.backtracking.unfiltered }
      (∀ sites q, G'.Leads reads { host, ids } sites q ↔ G.Leads reads { host, ids } sites q) ∧
      ∀ writes fuel,
        G'.derive reads writes fuel host ids = G.derive reads writes fuel host ids := by
  refine ⟨fun rule d hrule => Graph.searchMatch_unfiltered hhost hrule d,
    fun g hg => Graph.isIsomorphicTo_unfiltered hhost hg, fun rules policy reads ids hrules => ?_⟩
  have halike : Grammar.SearchesAlike { rules, policy } reads
      fun _ => Strategy.backtracking.unfiltered :=
    fun _ r hr _ hg => Graph.searchMatch_unfiltered hg (hrules r hr) reads
  exact ⟨fun _ _ => leads_iff_of_searchesAlike halike hhost,
    fun writes fuel => derive_eq_of_searchesAlike halike hhost writes fuel ids⟩

/-- In a host with a class and a table there are two ways to place a node, if labels are left aside.
The class is linked in the first pass, and passed over in the second. -/
theorem unfiltered_search_agrees_tables :
    let cls : Node := { id := ⟨0⟩, kind := "Class", domain := .source, action := some .create }
    let link : Node :=
      { id := ⟨1⟩, kind := "Trace", domain := .correspondence, action := some .create }
    let g := (Graph.assemble [cls, link]
      [{ tail := ⟨1⟩, head := ⟨0⟩, action := some .create }]).after ∅
    let r : Rule := { name := "Axiom", graph := g, tagged := by decide +kernel }
    let host := (Graph.assemble
      [{ id := ⟨5⟩, kind := "Table", domain := .target },
       { id := ⟨6⟩, kind := "Class", domain := .source }] []).after ∅
    let G : Grammar := { rules := [r], policy := .unpruned }
    let G' : Grammar := { G with strategy := fun _ => Strategy.backtracking.unfiltered }
    host.WellFormed ∧ g.WellFormed ∧
      (Strategy.backtracking.unfiltered.embeddings host.adjacency (g.context .source).adjacency
        (host.labelsAgree (g.context .source))).length = 2 ∧
      host.searchMatch g .source Strategy.backtracking.unfiltered =
        host.searchMatch g .source .backtracking ∧
      host.isIsomorphicTo g Strategy.backtracking.unfiltered = host.isIsomorphicTo g ∧
      ∃ o, G.derive .source .target 2 host { next := ⟨7⟩ } = some o ∧
        G'.derive .source .target 2 host { next := ⟨7⟩ } = some o ∧ o.events.size = 3 ∧
        ∃ sites q, G.Leads .source { host, ids := { next := ⟨7⟩ } } sites q ∧
          G'.Leads .source { host, ids := { next := ⟨7⟩ } } sites q ∧ sites.length = 1 := by
  intro cls link g r host G G'
  have hhost : host.WellFormed :=
    Graph.assemble_keeps_wellFormed _ _ ∅ (Graph.wellFormed_bare none)
  have hg : g.WellFormed := Graph.assemble_keeps_wellFormed _ _ ∅ (Graph.wellFormed_bare none)
  obtain ⟨hsearch, hiso, hderive⟩ := unfiltered_search_agrees hhost
  obtain ⟨hleads, hsame⟩ := hderive [r] .unpruned .source { next := ⟨7⟩ }
    (List.forall_mem_singleton.mpr hg)
  have hevents : (G.derive .source .target 2 host { next := ⟨7⟩ }).map (·.events.size) =
      some 3 := by
    decide +kernel
  obtain ⟨o, ho, hthree⟩ := Option.map_eq_some_iff.mp hevents
  -- one pass is not enough, so a rule fires in it
  have hnone : G.run .source 1 { host, ids := { next := ⟨7⟩ } } = none :=
    Option.isNone_iff_eq_none.mp (by decide +kernel)
  unfold run run at hnone
  cases hpass : G.pass .source G.rules (Progress.beginPass { host, ids := { next := ⟨7⟩ } }) with
  | ended ending q =>
    rw [hpass] at hnone
    cases hnone
  | fired r' found q =>
    have hq := Leads.start.fired hpass
    exact ⟨hhost, hg, by decide +kernel, hsearch g .source hg, hiso g hg, o, ho,
      (hsame .target 2).trans ho, hthree, _, q, hq, (hleads _ q).mpr hq, rfl⟩

end Grammar

end TripleGrammar
