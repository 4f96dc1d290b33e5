import TripleGrammar.Proofs.HostExtensions
import TripleGrammar.Proofs.Pruning

/-!
# Failures

A firing fails only because an id that it draws is in use, and it does not touch the host then. So a
derivation that fails leaves the host as the firings before have made it, also if it is the pruning
at the end that fails.
-/

namespace TripleGrammar

namespace Rule

variable {r : Rule} {d : Domain} {host : Graph} {found : Match}

lemma fire_of_draws (hrule : r.graph.WellFormed) (hhost : host.WellFormed)
    (hfits : host.Fits r.graph d found) (ids : IdSupply) :
    (∀ id, (ids.draws (r.newTemplates d).length).find? host.contains = some id →
        ∃ ids', r.fire found d host ids = (.error (.duplicateNode id), host, ids')) ∧
      ((ids.draws (r.newTemplates d).length).find? host.contains = none →
        ∃ f host' ids', r.fire found d host ids = (.ok f, host', ids')) := by
  rcases fire_cases hrule hhost hfits ids with
    ⟨id, ids', herror, hid⟩ | ⟨nodes, edges, bound, ids', hok, hadds, hids⟩
  · rw [hid]
    refine ⟨fun id' heq => ⟨ids', ?_⟩, fun heq => by cases heq⟩
    obtain rfl := Option.some.inj heq
    exact herror
  · have hnone : (ids.draws (r.newTemplates d).length).find? host.contains = none := by
      rw [← hids, List.find?_eq_none]
      intro id hid
      obtain ⟨n, hn, rfl⟩ := List.mem_map.mp hid
      simp [hadds.fresh n hn]
    exact ⟨fun id' heq => absurd (hnone.symm.trans heq) (by simp), fun _ => ⟨_, _, ids', hok⟩⟩

end Rule

namespace Graph

variable {g : Graph} {d : Domain} {e : DerivationError}

lemma defaultArity_of_prune_error (hg : g.WellFormed) (h : g.prune d = .error e) :
    ∃ c s t, e = .defaultArity c s t := by
  cases hfirst : g.nodes.find? g.unpaired with
  | some c =>
    rw [prune_eq_error hg hfirst] at h
    exact ⟨_, _, _, (Except.error.inj h).symm⟩
  | none =>
    obtain ⟨p, hp, -⟩ := exists_prune hg (d := d) hfirst
    rw [hp] at h
    cases h

end Graph

namespace Grammar

variable {G : Grammar} {d : Domain} {host : Graph} {p q : Progress} {ending : Ending}

/-- A pass in which no rule fires leaves the host as it was, and only an id in use can end it
early. -/
lemma pass_ended (hG : ∀ k, (G.strategy k).Sound) {rules : List Rule}
    (hrules : ∀ r ∈ rules, r.graph.WellFormed) (hp : p.host.WellFormed)
    (h : G.pass d rules p = .ended ending q) :
    q.host = p.host ∧ ∀ err, ending = .failed err → ∃ id, err = .duplicateNode id := by
  induction rules generalizing p with
  | nil =>
    cases h
    exact ⟨rfl, fun err herr => by cases herr⟩
  | cons r rules ih =>
    have hr := hrules r List.mem_cons_self
    unfold pass at h
    cases hattempt : G.attempt d r p with
    | idle p' =>
      rw [hattempt] at h
      have hhost : p'.host = p.host := by
        rcases tries_of_attempt_idle hattempt with ⟨hhost, -, -⟩ | ⟨f, hf, htries⟩
        · exact hhost
        · exact host_eq_of_isEmpty hG hr hp hf htries
      rw [← hhost]
      exact ih (fun r hr => hrules r (List.mem_cons_of_mem _ hr)) (hhost ▸ hp) h
    | fired found p' =>
      rw [hattempt] at h
      cases h
    | failed err p' =>
      rw [hattempt] at h
      cases h
      obtain ⟨-, -, hcases⟩ := (tries_of_attempt_failed hattempt).cases hG hr hp
      rcases hcases with ⟨id, herror, hhost⟩ | ⟨nodes, edges, bound, hok, -⟩
      · refine ⟨hhost, fun err' herr' => ⟨id, ?_⟩⟩
        cases herror
        exact (Ending.failed.inj herr').symm
      · cases hok

/-- A firing fails exactly if it draws an id that the host has, reports the first such id and leaves
the host alone. A derivation that fails has done so in a pass that follows its firings, or it has
settled after them and cannot be pruned, and in both cases it leaves the host that these made. -/
theorem failures_leave_host (hG : ∀ k, (G.strategy k).Sound)
    (hrules : ∀ r ∈ G.rules, r.graph.WellFormed) (hhost : host.WellFormed) :
    (∀ (r : Rule) (S : Strategy) (d : Domain) (ids : IdSupply), r.graph.WellFormed → S.Sound →
      (host.searchMatch r.graph d S).found.isEmpty = false →
      (∀ id, (ids.draws (r.newTemplates d).length).find? host.contains = some id →
        ∃ ids', r.fire (host.searchMatch r.graph d S).found d host ids =
          (.error (.duplicateNode id), host, ids')) ∧
      ((ids.draws (r.newTemplates d).length).find? host.contains = none →
        ∃ f host' ids', r.fire (host.searchMatch r.graph d S).found d host ids =
          (.ok f, host', ids'))) ∧
    ∀ reads writes fuel ids o e, G.derive reads writes fuel host ids = some o →
      o.result = .error e →
      ∃ sites q q', G.Leads reads { host, ids } sites q ∧ o.host = q.host ∧
        ((∃ id, e = .graph (.duplicateNode id) ∧
            G.pass reads G.rules q.beginPass = .ended (.failed (.duplicateNode id)) q') ∨
          (∃ c s t, e = .defaultArity c s t ∧
            G.pass reads G.rules q.beginPass = .ended .settled q' ∧
            q.host.prune writes = .error e)) := by
  refine ⟨fun r S d ids hr hS hfound => ?_, fun reads writes fuel ids o e ho he => ?_⟩
  · exact Rule.fire_of_draws hr hhost (Graph.fits_of_searchMatch hS hhost hr hfound).1 ids
  · obtain ⟨ending, q', hrun, hsame, hcases⟩ := exists_run_of_derive_error ho he
    obtain ⟨sites, q, hleads, hpass⟩ := exists_leads_of_run Leads.start hrun
    have hq : q.host.WellFormed := hleads.keeps (G.wellFormed_firings reads) hhost
    obtain ⟨hq', hfailed⟩ := pass_ended hG hrules (p := q.beginPass) hq hpass
    have hq' : q'.host = q.host := hq'
    refine ⟨sites, q, q', hleads, hsame.trans hq', ?_⟩
    rcases hcases with ⟨err, rfl, rfl⟩ | ⟨rfl, hprune⟩
    · obtain ⟨id, rfl⟩ := hfailed err rfl
      exact Or.inl ⟨id, rfl, hpass⟩
    · rw [hq'] at hprune
      obtain ⟨c, s, t, rfl⟩ := Graph.defaultArity_of_prune_error hq hprune
      exact Or.inr ⟨c, s, t, rfl, hpass, hprune⟩

/-- The first class is given a table, and then an id is drawn that the second class has. -/
theorem failures_leave_host_tables :
    let cls : Node := { id := ⟨0⟩, kind := "Class", domain := .source, action := some .create }
    let table : Node := { id := ⟨1⟩, kind := "Table", domain := .target, action := some .create }
    let link : Node :=
      { id := ⟨2⟩, kind := "Trace", domain := .correspondence, action := some .create }
    let g := (Graph.assemble [cls, table, link]
      [{ tail := ⟨2⟩, head := ⟨0⟩, action := some .create },
       { tail := ⟨2⟩, head := ⟨1⟩, action := some .create }]).after ∅
    let r : Rule := { name := "Axiom", graph := g, tagged := by decide +kernel }
    let G : Grammar := { rules := [r] }
    let host := (Graph.assemble
      [{ id := ⟨5⟩, kind := "Class", domain := .source },
       { id := ⟨9⟩, kind := "Class", domain := .source }] []).after ∅
    (∀ k, (G.strategy k).Sound) ∧ (∀ r ∈ G.rules, r.graph.WellFormed) ∧ host.WellFormed ∧
      (host.searchMatch g .source .backtracking).found.isEmpty = false ∧
      (∃ ids', r.fire (host.searchMatch g .source .backtracking).found .source host
        { next := ⟨8⟩ } = (.error (.duplicateNode ⟨9⟩), host, ids')) ∧
      ∃ o e sites q, G.derive .source .target 3 host { next := ⟨7⟩ } = some o ∧
        o.result = .error e ∧ o.host.nodes.length = 4 ∧
        G.Leads .source { host, ids := { next := ⟨7⟩ } } sites q ∧ o.host = q.host := by
  intro cls table link g r G host
  have hG : ∀ k, (G.strategy k).Sound := fun _ => Strategy.backtracking_sound
  have hg : g.WellFormed := Graph.assemble_keeps_wellFormed _ _ ∅ (Graph.wellFormed_bare none)
  have hrules : ∀ r ∈ G.rules, r.graph.WellFormed := by
    intro r' hr'
    obtain rfl := List.mem_singleton.mp hr'
    exact hg
  have hhost : host.WellFormed :=
    Graph.assemble_keeps_wellFormed _ _ ∅ (Graph.wellFormed_bare none)
  have hfound : (host.searchMatch g .source .backtracking).found.isEmpty = false := by
    decide +kernel
  have hused : (({ next := ⟨8⟩ } : IdSupply).draws (r.newTemplates .source).length).find?
      host.contains = some ⟨9⟩ := by decide +kernel
  have hderive : (G.derive .source .target 3 host { next := ⟨7⟩ }).map
      (fun o => (o.result.toOption.isSome, o.host.nodes.length)) = some (false, 4) := by
    decide +kernel
  obtain ⟨hfires, hfails⟩ := failures_leave_host hG hrules hhost
  obtain ⟨hfire, -⟩ :=
    hfires r .backtracking .source { next := ⟨8⟩ } hg Strategy.backtracking_sound hfound
  obtain ⟨o, ho, heq⟩ := Option.map_eq_some_iff.mp hderive
  obtain ⟨hresult, hlength⟩ := Prod.mk.inj heq
  obtain ⟨e, he⟩ : ∃ e, o.result = .error e := by
    cases hcases : o.result with
    | error e => exact ⟨e, rfl⟩
    | ok t =>
      rw [hcases] at hresult
      cases hresult
  obtain ⟨sites, q, -, hleads, hsame, -⟩ := hfails .source .target 3 { next := ⟨7⟩ } o e ho he
  exact ⟨hG, hrules, hhost, hfound, hfire ⟨9⟩ hused, o, e, sites, q, ho, he, hlength, hleads,
    hsame⟩

end Grammar

end TripleGrammar
