import TripleGrammar.Proofs.Failures
import TripleGrammar.Proofs.VisitingOrders

/-!
# Matches that last

Nodes and edges that are added to a host leave the earlier ones in their places, so what embeds in
the host embeds at the same positions later on. Only a correspondence can make the search pass over
an embedding. So a rule that creates none goes on matching once it has matched, and if it adds
something each time, the derivation does not settle.
-/

namespace TripleGrammar

namespace Graph

variable {host g g' pattern rule : Graph} {d : Domain} {S : Strategy}

/-- The host after nodes and edges have been added to it one by one, none of which was refused. -/
inductive Grows (host : Graph) : Graph → Prop where
  | start : Grows host host
  | node {g g' : Graph} {n : Node} (before : Grows host g) (added : (addNode n).run g = .ok () g') :
      Grows host g'
  | edge {g g' : Graph} {e : Edge} (before : Grows host g) (added : (addEdge e).run g = .ok () g') :
      Grows host g'

/-- `g'` has the nodes and edges of `g` in the same places, and perhaps more behind them. -/
structure Prolongs (g g' : Graph) : Prop where
  nodes : g.nodes <+: g'.nodes
  edges : g.edges <+: g'.edges

namespace Prolongs

lemma refl (g : Graph) : g.Prolongs g := ⟨List.prefix_rfl, List.prefix_rfl⟩

lemma trans {g'' : Graph} (h : g.Prolongs g') (h' : g'.Prolongs g'') : g.Prolongs g'' :=
  ⟨h.nodes.trans h'.nodes, h.edges.trans h'.edges⟩

lemma enterNew (g : Graph) (n : Node) : g.Prolongs (g.enterNew n) := by
  refine ⟨?_, by rw [edges_enterNew]⟩
  unfold Graph.enterNew
  split
  · exact List.prefix_rfl
  · exact List.prefix_append g.nodes [n]

lemma join (g : Graph) (e : Edge) : g.Prolongs (g.join e) := by
  refine ⟨by rw [nodes_join], ?_⟩
  unfold Graph.join
  split
  · exact List.prefix_append g.edges [e]
  · exact List.prefix_rfl

/-- A node of `g` has the same position in `g'`. -/
def position (h : g.Prolongs g') (i : Fin g.nodes.length) : Fin g'.nodes.length :=
  i.castLE h.nodes.length_le

lemma get_position (h : g.Prolongs g') (i : Fin g.nodes.length) :
    g'.nodes.get (h.position i) = g.nodes.get i :=
  (h.nodes.getElem i.isLt).symm

lemma suits (h : g.Prolongs g') {f : g.Placing pattern} (hf : g.Suits pattern f) :
    g'.Suits pattern fun i => h.position (f i) where
  injective _ _ heq := hf.injective (Fin.castLE_injective _ heq)
  kind i := by rw [h.get_position, hf.kind]
  domain i := by rw [h.get_position, hf.domain]
  edge i k hik := by
    obtain ⟨e, he, ht, hh⟩ := hf.edge i k hik
    refine ⟨e, h.edges.subset he, ?_, ?_⟩
    · rw [h.get_position, ht]
    · rw [h.get_position, hh]

end Prolongs

lemma Extends.prolongs (h : g.Extends d g') : g.Prolongs g' := by
  obtain ⟨nodes, hnodes, -⟩ := h.nodes
  obtain ⟨edges, hedges, -⟩ := h.edges
  exact ⟨⟨nodes, hnodes.symm⟩, ⟨edges, hedges.symm⟩⟩

namespace Grows

lemma wellFormed (h : host.Grows g) (hhost : host.WellFormed) : g.WellFormed := by
  induction h with
  | start => exact hhost
  | @node g g' n _ added ih =>
    have hkept := addNode_keeps_wellFormed n g ih
    unfold Edit.after at hkept
    rwa [added] at hkept
  | @edge g g' e _ added ih =>
    have hkept := addEdge_keeps_wellFormed e g ih
    unfold Edit.after at hkept
    rwa [added] at hkept

lemma prolongs (h : host.Grows g) : host.Prolongs g := by
  induction h with
  | start => exact Prolongs.refl host
  | @node g g' n _ added ih =>
    rw [run_addNode] at added
    split at added
    · cases added
    · cases added
      exact ih.trans (Prolongs.enterNew g n)
  | @edge g g' e _ added ih =>
    rw [run_addEdge] at added
    split at added
    · split at added
      · cases added
        exact ih.trans (Prolongs.join g e)
      · cases added
    · cases added

end Grows

/-! ### Rules that create no correspondence -/

/-- No node that the rule creates is a correspondence. -/
def LinksNothing (rule : Graph) : Prop :=
  ∀ n ∈ rule.nodes, n.domain = .correspondence → n.action ≠ some .create

instance (rule : Graph) : Decidable rule.LinksNothing :=
  inferInstanceAs
    (Decidable (∀ n ∈ rule.nodes, n.domain = .correspondence → n.action ≠ some .create))

lemma LinksNothing.not_repeats (h : rule.LinksNothing) (f : host.Placing pattern) :
    ¬host.Repeats rule d f := by
  rintro ⟨⟨n, hn, hd, ha⟩, -⟩
  exact h n hn hd ha

lemma LinksNothing.isEmpty_findMatch_iff (h : rule.LinksNothing) (hS : S.Exact)
    (hhost : host.WellFormed) (hrule : rule.WellFormed) :
    (host.findMatch rule d S).isEmpty = false ↔
      (∃ f, host.Suits (rule.context d) f) ∧ (rule.context d).nodes ≠ [] := by
  rw [← Bool.not_eq_true, Graph.isEmpty_findMatch_iff hS hhost hrule, not_or]
  simp only [not_forall, h.not_repeats, not_false_eq_true, exists_prop, and_true]

lemma Prolongs.isEmpty_findMatch (h : g.Prolongs g') (hg : g.WellFormed) (hg' : g'.WellFormed)
    (hrule : rule.WellFormed) (hlinks : rule.LinksNothing) (hS : S.Exact)
    (hfound : (g.findMatch rule d S).isEmpty = false) :
    (g'.findMatch rule d S).isEmpty = false := by
  obtain ⟨⟨f, hf⟩, hnodes⟩ := (hlinks.isEmpty_findMatch_iff hS hg hrule).mp hfound
  exact (hlinks.isEmpty_findMatch_iff hS hg' hrule).mpr ⟨⟨_, h.suits hf⟩, hnodes⟩

end Graph

/-! ### Derivations that do not settle -/

namespace Rule

variable {r : Rule} {d : Domain} {host : Graph}

lemma hasCreation_of_not_addsNothing (h : ¬r.AddsNothing d) : r.hasCreation = true := by
  unfold hasCreation Graph.hasCreation
  rw [Bool.or_eq_true, List.any_eq_true, List.any_eq_true]
  rcases not_and_or.mp h with hnodes | hedges
  · obtain ⟨t, ht⟩ := List.exists_mem_of_ne_nil _ hnodes
    have hcreated := (List.mem_filter.mp ht).1
    exact Or.inl ⟨t, List.mem_filter.mp hcreated⟩
  · obtain ⟨e, he⟩ := List.exists_mem_of_ne_nil _ hedges
    obtain ⟨hmem, hcreate, -⟩ := mem_of_mem_newEdges he
    exact Or.inr ⟨e, hmem, hcreate⟩

lemma not_rests (hrule : r.graph.WellFormed) (hhost : host.WellFormed) (hadds : ¬r.AddsNothing d)
    (hfound : (host.findMatch r.graph d).isEmpty = false) : ¬r.Rests d host := by
  rw [rests_iff hrule hhost, hfound, hasCreation_of_not_addsNothing hadds]
  simpa using hadds

end Rule

namespace Grammar

variable {G : Grammar} {d : Domain} {p q : Progress} {r : Rule} {host : Graph}

/-- Where a rule of the list does not rest, the pass does not settle. -/
lemma pass_ne_settled (hG : ∀ k, (G.strategy k).Exact) {rules : List Rule}
    (hrules : ∀ r ∈ rules, r.graph.WellFormed) (hp : p.host.WellFormed) (hr : r ∈ rules)
    (hrests : ¬r.Rests d p.host) (q : Progress) : G.pass d rules p ≠ .ended .settled q := by
  intro hpass
  have hidle : ∀ r ∈ rules, ∀ q₁ q₂, p.Stays q₁ → G.attempt d r q₁ = .idle q₂ → p.Stays q₂ := by
    intro r hr q₁ q₂ hstays hattempt
    rcases attempt_cases (d := d) hG (hrules r hr) (hstays.host ▸ hp) with
      ⟨-, q', hq', hstays'⟩ | ⟨-, hne⟩
    · obtain rfl := Attempt.idle.inj (hattempt.symm.trans hq')
      exact hstays.trans hstays'
    · exact absurd hattempt (hne q₂)
  have hstays : p.Stays q := of_pass_settled hidle ⟨rfl, rfl, rfl, rfl⟩ hpass
  exact hrests ((pass_settled_iff hG hrules hp).mp ⟨q, hpass, hstays⟩ r hr)

section

variable (hG : ∀ k, (G.strategy k).Exact) (hrules : ∀ r ∈ G.rules, r.graph.WellFormed)
  (hhost : host.WellFormed) (hr : r ∈ G.rules) (hlinks : r.graph.LinksNothing)
  (hadds : ¬r.AddsNothing d) (hfound : (host.findMatch r.graph d).isEmpty = false) {ids : IdSupply}

include hG hrules hhost hr hlinks hadds hfound

/-- Wherever a run comes to, the next pass is not the last unless an id is in use. -/
lemma pass_cases_of_lasting {sites : List Site} (hq : G.Leads d { host, ids } sites q) :
    (∃ r found q', G.pass d G.rules q.beginPass = .fired r found q') ∨
      ∃ id q', G.pass d G.rules q.beginPass = .ended (.failed (.duplicateNode id)) q' := by
  have hsound : ∀ k, (G.strategy k).Sound := fun k => (hG k).sound
  obtain ⟨hqhost, hext⟩ := hq.keeps (firings_extend hsound hrules host)
    ⟨hhost, Graph.Extends.refl d host⟩
  have hfound' := hext.prolongs.isEmpty_findMatch hhost hqhost (hrules r hr) hlinks
    Strategy.backtracking_exact hfound
  have hrests := Rule.not_rests (hrules r hr) hqhost hadds hfound'
  cases hpass : G.pass d G.rules q.beginPass with
  | fired r found q' => exact Or.inl ⟨r, found, q', rfl⟩
  | ended ending q' =>
    cases ending with
    | settled =>
      exact absurd hpass (pass_ne_settled (p := q.beginPass) hG hrules hqhost hr hrests q')
    | failed err =>
      obtain ⟨-, hfailed⟩ := pass_ended hsound hrules (p := q.beginPass) hqhost hpass
      obtain ⟨id, rfl⟩ := hfailed err rfl
      exact Or.inr ⟨id, q', rfl⟩

lemma leads_or_fails_of_lasting (k : Nat) :
    (∃ sites q, G.Leads d { host, ids } sites q ∧ sites.length = k) ∨
      ∃ sites q id q', G.Leads d { host, ids } sites q ∧ sites.length < k ∧
        G.pass d G.rules q.beginPass = .ended (.failed (.duplicateNode id)) q' := by
  induction k with
  | zero => exact Or.inl ⟨[], _, Leads.start, rfl⟩
  | succ k ih =>
    rcases ih with ⟨sites, q, hq, hlength⟩ | ⟨sites, q, id, q', hq, hlt, hpass⟩
    · rcases pass_cases_of_lasting hG hrules hhost hr hlinks hadds hfound hq with
        ⟨r', found, q', hpass⟩ | ⟨id, q', hpass⟩
      · exact Or.inl ⟨_, q', hq.fired hpass, by simp [hlength]⟩
      · exact Or.inr ⟨sites, q, id, q', hq, by omega, hpass⟩
    · exact Or.inr ⟨sites, q, id, q', hq, by omega, hpass⟩

lemma ending_of_lasting {fuel : Nat} {ending : Ending}
    (hrun : G.run d fuel { host, ids } = some (ending, q)) :
    ∃ id, ending = .failed (.duplicateNode id) := by
  obtain ⟨sites, q', hq', hpass⟩ := exists_leads_of_run Leads.start hrun
  rcases pass_cases_of_lasting hG hrules hhost hr hlinks hadds hfound hq' with
    ⟨r', found, q'', hfired⟩ | ⟨id, q'', hfailed⟩
  · rw [hfired] at hpass
    cases hpass
  · rw [hfailed] at hpass
    cases hpass
    exact ⟨id, rfl⟩

lemma result_of_lasting {writes : Domain} {fuel : Nat} {o : Outcome}
    (ho : G.derive d writes fuel host ids = some o) :
    ∃ id, o.result = .error (.graph (.duplicateNode id)) := by
  unfold derive at ho
  split at ho
  · cases ho
  next err q hrun =>
    obtain ⟨id, heq⟩ := ending_of_lasting hG hrules hhost hr hlinks hadds hfound hrun
    obtain rfl := Ending.failed.inj heq
    cases ho
    exact ⟨id, rfl⟩
  next q hrun =>
    obtain ⟨id, heq⟩ := ending_of_lasting hG hrules hhost hr hlinks hadds hfound hrun
    cases heq

end

/-- What embeds in a host embeds at the same positions when nodes and edges have been added to it,
so a rule that creates no correspondence matches there if it matched before. A derivation that has
such a rule at hand does not settle if the rule adds something where it fires and matches the host
to begin with: for any number of passes, either as many rules fire one after the other, or after
fewer firings an id is drawn that is in use. An outcome can only be that error. -/
theorem unlinked_matches_last (hG : ∀ k, (G.strategy k).Exact)
    (hrules : ∀ r ∈ G.rules, r.graph.WellFormed) (hhost : host.WellFormed) :
    (∀ host', host.Grows host' → ∀ (rule : Graph) (d : Domain), rule.WellFormed →
      (∀ f, host.Suits (rule.context d) f → ∃ f', (∀ i, (f' i : Nat) = f i) ∧
        host'.Suits (rule.context d) f') ∧
      (rule.LinksNothing → ∀ S : Strategy, S.Exact → (host.findMatch rule d S).isEmpty = false →
        (host'.findMatch rule d S).isEmpty = false)) ∧
    ∀ reads, ∀ r ∈ G.rules, r.graph.LinksNothing → ¬r.AddsNothing reads →
      (host.findMatch r.graph reads).isEmpty = false → ∀ ids,
      (∀ k, (∃ sites q, G.Leads reads { host, ids } sites q ∧ sites.length = k) ∨
        ∃ sites q id q', G.Leads reads { host, ids } sites q ∧ sites.length < k ∧
          G.pass reads G.rules q.beginPass = .ended (.failed (.duplicateNode id)) q') ∧
      ∀ writes fuel o, G.derive reads writes fuel host ids = some o →
        ∃ id, o.result = .error (.graph (.duplicateNode id)) := by
  refine ⟨fun host' hgrows rule d hrule => ⟨fun f hf => ?_, fun hlinks S hS hfound => ?_⟩,
    fun reads r hr hlinks hadds hfound ids => ⟨fun k => ?_, fun writes fuel o ho => ?_⟩⟩
  · exact ⟨fun i => hgrows.prolongs.position (f i), fun i => rfl, hgrows.prolongs.suits hf⟩
  · exact hgrows.prolongs.isEmpty_findMatch hhost (hgrows.wellFormed hhost) hrule hlinks hS hfound
  · exact leads_or_fails_of_lasting hG hrules hhost hr hlinks hadds hfound k
  · exact result_of_lasting hG hrules hhost hr hlinks hadds hfound ho

/-- An alarm is raised for the queue again and again, also after the class has its link, until an id
is drawn that the host has. -/
theorem unlinked_matches_last_alarms :
    let queue : Node := { id := ⟨0⟩, kind := "Queue", domain := .source, action := some .preserve }
    let alarm : Node := { id := ⟨1⟩, kind := "Alarm", domain := .target, action := some .create }
    let cls : Node := { id := ⟨0⟩, kind := "Class", domain := .source, action := some .create }
    let link : Node :=
      { id := ⟨1⟩, kind := "Link", domain := .correspondence, action := some .create }
    let g := (Graph.assemble [queue, alarm] []).after ∅
    let g' := (Graph.assemble [cls, link]
      [{ tail := ⟨1⟩, head := ⟨0⟩, action := some .create }]).after ∅
    let r : Rule := { name := "Raise", graph := g, tagged := by decide +kernel }
    let r' : Rule := { name := "Axiom", graph := g', tagged := by decide +kernel }
    let G : Grammar := { rules := [r', r] }
    let host := (Graph.assemble
      [{ id := ⟨5⟩, kind := "Queue", domain := .source },
       { id := ⟨9⟩, kind := "Class", domain := .source }] []).after ∅
    let host' := host.join { tail := ⟨9⟩, head := ⟨5⟩ }
    (∀ k, (G.strategy k).Exact) ∧ (∀ r ∈ G.rules, r.graph.WellFormed) ∧ host.WellFormed ∧
      host.Grows host' ∧ g.LinksNothing ∧ ¬r.AddsNothing .source ∧
      (host.findMatch g .source).isEmpty = false ∧ (host'.findMatch g .source).isEmpty = false ∧
      ((∃ sites q, G.Leads .source { host, ids := { next := ⟨6⟩ } } sites q ∧ sites.length = 9) ∨
        ∃ sites q id q', G.Leads .source { host, ids := { next := ⟨6⟩ } } sites q ∧
          sites.length < 9 ∧
          G.pass .source G.rules q.beginPass = .ended (.failed (.duplicateNode id)) q') ∧
      ∃ o id, G.derive .source .target 4 host { next := ⟨6⟩ } = some o ∧
        o.result = .error (.graph (.duplicateNode id)) ∧ o.host.nodes.length = 5 := by
  intro queue alarm cls link g g' r r' G host host'
  have hG : ∀ k, (G.strategy k).Exact := fun _ => Strategy.backtracking_exact
  have hg : g.WellFormed := Graph.assemble_keeps_wellFormed _ _ ∅ (Graph.wellFormed_bare none)
  have hg' : g'.WellFormed := Graph.assemble_keeps_wellFormed _ _ ∅ (Graph.wellFormed_bare none)
  have hrules : ∀ r ∈ G.rules, r.graph.WellFormed :=
    List.forall_mem_cons.mpr ⟨hg', List.forall_mem_singleton.mpr hg⟩
  have hhost : host.WellFormed :=
    Graph.assemble_keeps_wellFormed _ _ ∅ (Graph.wellFormed_bare none)
  have hgrows : host.Grows host' :=
    Graph.Grows.start.edge (e := { tail := ⟨9⟩, head := ⟨5⟩ }) (by rfl)
  have hlinks : g.LinksNothing := by decide +kernel
  have hadds : ¬r.AddsNothing .source := by decide +kernel
  have hfound : (host.findMatch g .source).isEmpty = false := by decide +kernel
  have hderive : (G.derive .source .target 4 host { next := ⟨6⟩ }).map
      (fun o => o.host.nodes.length) = some 5 := by decide +kernel
  obtain ⟨hmatches, hruns⟩ := unlinked_matches_last hG hrules hhost
  obtain ⟨hpasses, hresult⟩ := hruns .source r (by simp [G]) hlinks hadds hfound { next := ⟨6⟩ }
  obtain ⟨o, ho, hlength⟩ := Option.map_eq_some_iff.mp hderive
  obtain ⟨id, hid⟩ := hresult .target 4 o ho
  have hfound' := (hmatches host' hgrows g .source hg).2 hlinks .backtracking
    Strategy.backtracking_exact hfound
  exact ⟨hG, hrules, hhost, hgrows, hlinks, hadds, hfound, hfound', hpasses 9, o, id, ho, hid,
    hlength⟩

end Grammar

end TripleGrammar
