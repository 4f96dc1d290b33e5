import TripleGrammar.Proofs.HostExtensions

/-!
# Fixed points

A pass in which no rule fires sees one host throughout, the one that it ends with: a firing that
adds nothing leaves host and ids alone. So when a derivation settles, no rule has anything left to
add, not even one that an earlier pass has gone past, and to derive again does nothing.
-/

namespace TripleGrammar

variable {r : Rule} {d : Domain} {host : Graph} {found : Match} {ids : IdSupply}

lemma Firing.isEmpty_iff {f : Firing} : f.isEmpty = true ↔ f = ⟨0, 0⟩ := by
  obtain ⟨nodes, edges⟩ := f
  simp [Firing.isEmpty]

namespace Rule

/-- A firing adds as much as the rule creates outside what it reads, so one that adds nothing adds
nothing with any other ids either. -/
lemma fire_eq_of_isEmpty (hrule : r.graph.WellFormed) (hhost : host.WellFormed)
    (hfits : host.Fits r.graph d found) {f : Firing} {host' : Graph} {ids' : IdSupply}
    (hf : f.isEmpty = true) (h : r.fire found d host ids = (.ok f, host', ids')) (ids₁ : IdSupply) :
    r.fire found d host ids₁ = (.ok ⟨0, 0⟩, host, ids₁) := by
  obtain ⟨nodes, edges, bound, rfl, -, -, -, hadds, -⟩ := of_fire_ok hrule hhost hfits h
  obtain ⟨hnodes, hedges⟩ := Firing.mk.inj (Firing.isEmpty_iff.mp hf)
  have htemplates : r.newTemplates d = [] :=
    List.length_eq_zero_iff.mp (hadds.instances.length_eq.trans hnodes)
  have hnone : r.newEdges d = [] :=
    List.length_eq_zero_iff.mp (hadds.placed.length_eq.trans hedges)
  rcases fire_cases hrule hhost hfits ids₁ with
    ⟨id, ids₂, -, hid⟩ | ⟨nodes₁, edges₁, bound₁, ids₂, hok, hadds₁, -⟩
  · rw [htemplates] at hid
    cases hid
  · obtain ⟨nodes₂, edges₂, bound₂, hcount, -, rfl, -⟩ := of_fire_ok hrule hhost hfits hok
    have hinstances := hadds₁.instances
    have hplaced := hadds₁.placed
    rw [htemplates, List.forall₂_nil_left_iff] at hinstances
    rw [hnone, List.forall₂_nil_left_iff] at hplaced
    subst hinstances
    subst hplaced
    rw [← (Firing.mk.inj hcount).1] at hok
    exact hok

/-- The rule adds nothing to the host, be it that it creates nothing, that there is no match, or
that all is there already that it would add at the match. -/
def Rests (r : Rule) (d : Domain) (host : Graph) : Prop :=
  r.hasCreation = false ∨ (host.findMatch r.graph d).isEmpty = true ∨
    ∀ ids, r.fire (host.findMatch r.graph d) d host ids = (.ok ⟨0, 0⟩, host, ids)

end Rule

lemma Outcome.result_eq_ok {o : Outcome} {t : Derivation} (h : o.result.toOption = some t) :
    o.result = .ok t := by
  cases hresult : o.result with
  | error e =>
    rw [hresult] at h
    cases h
  | ok t' =>
    rw [hresult] at h
    exact congrArg Except.ok (Option.some.inj h)

namespace Grammar

variable {G : Grammar} {p q : Progress} {rules : List Rule}

/-! ### Rules that rest -/

/-- An attempt that comes to nothing leaves host and supply alone. -/
lemma unchanged_of_attempt_idle (hG : ∀ k, (G.strategy k).Sound) (hrule : r.graph.WellFormed)
    (hp : p.host.WellFormed) (h : G.attempt d r p = .idle q) :
    q.host = p.host ∧ q.ids = p.ids := by
  rcases tries_of_attempt_idle h with ⟨hhost, hids, -⟩ | ⟨f, hf, htries⟩
  · exact ⟨hhost, hids⟩
  · have hfits := (fits_nextMatch hG hrule hp htries.found).1
    have hfire := Rule.fire_eq_of_isEmpty hrule hp hfits hf htries.fire p.ids
    obtain ⟨-, hsame⟩ := Prod.mk.inj (hfire.symm.trans htries.fire)
    obtain ⟨hhost, hids⟩ := Prod.mk.inj hsame
    exact ⟨hhost.symm, hids.symm⟩

lemma findMatch_eq_nextMatch (hG : ∀ k, G.strategy k = .backtracking) (r : Rule) (p : Progress) :
    p.host.findMatch r.graph d = G.nextMatch d r p := by
  unfold Graph.findMatch nextMatch
  rw [hG]

lemma rests_of_attempt_idle (hG : ∀ k, G.strategy k = .backtracking) (hrule : r.graph.WellFormed)
    (hp : p.host.WellFormed) (h : G.attempt d r p = .idle q) :
    r.Rests d p.host ∧ q.host = p.host ∧ q.ids = p.ids := by
  have hsound : ∀ k, (G.strategy k).Sound := fun k => hG k ▸ Strategy.backtracking_sound
  refine ⟨?_, unchanged_of_attempt_idle hsound hrule hp h⟩
  unfold Rule.Rests
  rw [findMatch_eq_nextMatch hG]
  unfold attempt at h
  split at h
  next hcreation => exact Or.inl (by simpa using hcreation)
  next =>
    dsimp only at h
    split at h
    next hfound => exact Or.inr (Or.inl hfound)
    next hfound =>
      split at h
      · cases h
      next f host ids hfire =>
        split at h
        next hf =>
          have hfits := (fits_nextMatch hsound hrule hp (Bool.eq_false_iff.mpr hfound)).1
          exact Or.inr (Or.inr (Rule.fire_eq_of_isEmpty hrule hp hfits hf hfire))
        · cases h

lemma attempt_of_rests (hG : ∀ k, G.strategy k = .backtracking) (h : r.Rests d p.host) :
    ∃ q, G.attempt d r p = .idle q ∧ q.host = p.host ∧ q.ids = p.ids ∧ q.passes = p.passes ∧
      q.firings = p.firings := by
  unfold Rule.Rests at h
  rw [findMatch_eq_nextMatch hG] at h
  by_cases hidle : r.hasCreation = false ∨ (G.nextMatch d r p).isEmpty = true
  · exact exists_attempt_eq_idle hidle
  · obtain ⟨hcreation, hfound⟩ := not_or.mp hidle
    have hfire := (h.resolve_left hcreation).resolve_left hfound p.ids
    exact exists_attempt_of_fire_ok (by simpa using hcreation) (by simpa using hfound) hfire

/-- A pass in which no rule fires has tried all of them on one host. -/
lemma rests_of_pass_settled (hG : ∀ k, G.strategy k = .backtracking)
    (hrules : ∀ r ∈ rules, r.graph.WellFormed) (hp : p.host.WellFormed)
    (h : G.pass d rules p = .ended .settled q) :
    (∀ r ∈ rules, r.Rests d p.host) ∧ q.host = p.host ∧ q.ids = p.ids := by
  induction rules generalizing p with
  | nil =>
    cases h
    exact ⟨fun r hr => absurd hr List.not_mem_nil, rfl, rfl⟩
  | cons r rules ih =>
    obtain ⟨hr, hrest⟩ := List.forall_mem_cons.mp hrules
    unfold pass at h
    cases hattempt : G.attempt d r p with
    | idle p' =>
      rw [hattempt] at h
      obtain ⟨hrests, hhost, hids⟩ := rests_of_attempt_idle hG hr hp hattempt
      obtain ⟨hothers, hhost', hids'⟩ := ih hrest (hhost ▸ hp) h
      rw [hhost] at hothers hhost'
      exact ⟨List.forall_mem_cons.mpr ⟨hrests, hothers⟩, hhost', hids'.trans hids⟩
    | fired found p' =>
      rw [hattempt] at h
      cases h
    | failed e p' =>
      rw [hattempt] at h
      cases h

lemma pass_of_rests (hG : ∀ k, G.strategy k = .backtracking) (h : ∀ r ∈ rules, r.Rests d p.host) :
    ∃ q, G.pass d rules p = .ended .settled q ∧ q.host = p.host ∧ q.ids = p.ids ∧
      q.passes = p.passes ∧ q.firings = p.firings := by
  induction rules generalizing p with
  | nil => exact ⟨p, rfl, rfl, rfl, rfl, rfl⟩
  | cons r rules ih =>
    obtain ⟨hr, hrest⟩ := List.forall_mem_cons.mp h
    obtain ⟨p', hattempt, hhost, hids, hpasses, hfirings⟩ := attempt_of_rests hG hr
    rw [← hhost] at hrest
    obtain ⟨q, hpass, hhost', hids', hpasses', hfirings'⟩ := ih hrest
    refine ⟨q, ?_, hhost'.trans hhost, hids'.trans hids, hpasses'.trans hpasses,
      hfirings'.trans hfirings⟩
    unfold pass
    rw [hattempt]
    exact hpass

/-! ### Derivations that succeed -/

variable {reads writes : Domain} {fuel : Nat} {o : Outcome} {t : Derivation}

lemma exists_settled_of_derive (h : G.derive reads writes fuel host ids = some o)
    (ht : o.result = .ok t) :
    ∃ q, G.run reads fuel { host, ids } = some (.settled, q) ∧ o = G.finish reads writes q := by
  unfold derive at h
  split at h
  · cases h
  · cases h
    cases ht
  next q hrun => exact ⟨q, hrun, (Option.some.inj h).symm⟩

lemma ids_finish : (G.finish reads writes q).ids = q.ids := by
  unfold finish
  split <;> rfl

lemma finish_of_output (reads : Domain) {graph : Graph} {events : List Event}
    (h : G.output q.host writes = .ok (graph, events)) :
    ∃ t, (G.finish reads writes q).result = .ok t ∧ t.graph = graph ∧ t.passes = q.passes ∧
      t.firings = q.firings := by
  unfold finish
  rw [h]
  exact ⟨_, rfl, rfl, rfl, rfl⟩

lemma finish_of_output_error {e : DerivationError} (h : G.output q.host writes = .error e) :
    (G.finish reads writes q).result = .error e := by
  unfold finish
  rw [h]

/-- Where all rules rest, a derivation settles in its first pass. -/
lemma exists_finish_of_rests (hG : ∀ k, G.strategy k = .backtracking)
    (h : ∀ r ∈ G.rules, r.Rests reads host) (writes : Domain) (ids : IdSupply) :
    ∃ q, (∀ fuel, 0 < fuel →
        G.derive reads writes fuel host ids = some (G.finish reads writes q)) ∧
      q.host = host ∧ q.ids = ids ∧ q.passes = 1 ∧ q.firings = ∅ := by
  obtain ⟨q, hpass, hhost, hids, hpasses, hfirings⟩ :=
    pass_of_rests hG (p := Progress.beginPass { host, ids }) h
  refine ⟨q, fun fuel hfuel => ?_, hhost, hids, hpasses, hfirings⟩
  obtain ⟨fuel, rfl⟩ := Nat.exists_eq_add_of_le' hfuel
  unfold derive run
  rw [hpass]

/-- On the host that a derivation leaves when it succeeds no rule can add anything. If the grammar
derives from that host again, whatever ids it is given, it takes one pass in which nothing happens
and returns the same graph. -/
theorem derived_host_rests (hG : ∀ k, G.strategy k = .backtracking)
    (hrules : ∀ r ∈ G.rules, r.graph.WellFormed) (hhost : host.WellFormed)
    (ho : G.derive reads writes fuel host ids = some o) (ht : o.result = .ok t) :
    (∀ r ∈ G.rules, r.Rests reads o.host) ∧
    ∀ fuel' ids', 0 < fuel' → ∃ o' t', G.derive reads writes fuel' o.host ids' = some o' ∧
      o'.result = .ok t' ∧ t'.passes = 1 ∧ t'.firings = ∅ ∧ t'.graph = t.graph ∧
      o'.host = o.host ∧ o'.ids = ids' := by
  obtain ⟨q', hrun, rfl⟩ := exists_settled_of_derive ho ht
  obtain ⟨sites, q, hleads, hpass⟩ := exists_leads_of_run Leads.start hrun
  have hq : q.host.WellFormed := hleads.keeps (G.wellFormed_firings reads) hhost
  obtain ⟨hrests, hsame, -⟩ := rests_of_pass_settled hG hrules (p := q.beginPass) hq hpass
  change q'.host = q.host at hsame
  change ∀ r ∈ G.rules, r.Rests reads q.host at hrests
  rw [← hsame] at hrests
  rw [host_finish]
  refine ⟨hrests, fun fuel' ids' hfuel => ?_⟩
  obtain ⟨events, houtput⟩ := output_of_finish ht
  obtain ⟨q₁, hderive₁, hhost₁, hids₁, hpasses₁, hfirings₁⟩ :=
    exists_finish_of_rests hG hrests writes ids'
  rw [← hhost₁] at houtput
  obtain ⟨t', ht', hgraph, hpasses, hfirings⟩ := finish_of_output reads houtput
  exact ⟨G.finish reads writes q₁, t', hderive₁ fuel' hfuel, ht', hpasses.trans hpasses₁,
    hfirings.trans hfirings₁, hgraph, host_finish.trans hhost₁, ids_finish.trans hids₁⟩

/-- A state is given a place. The rule that is tried first finds the state too, but all that it
creates is inside the domain that is read. -/
theorem derived_host_rests_places :
    let state : Node := { id := ⟨0⟩, kind := "State", domain := .source, action := some .create }
    let place : Node := { id := ⟨1⟩, kind := "Place", domain := .target, action := some .create }
    let link : Node :=
      { id := ⟨2⟩, kind := "Trace", domain := .correspondence, action := some .create }
    let seen := (Graph.assemble [state] []).after ∅
    let linked := (Graph.assemble [state, place, link]
      [{ tail := ⟨2⟩, head := ⟨0⟩, action := some .create },
       { tail := ⟨2⟩, head := ⟨1⟩, action := some .create }]).after ∅
    let s : Rule := { name := "Seen", graph := seen, tagged := by decide +kernel }
    let r : Rule := { name := "Axiom", graph := linked, tagged := by decide +kernel }
    let G : Grammar := { rules := [s, r] }
    let host := (Graph.assemble [{ id := ⟨5⟩, kind := "State", domain := .source }] []).after ∅
    (∀ k, G.strategy k = .backtracking) ∧ (∀ r ∈ G.rules, r.graph.WellFormed) ∧
      host.WellFormed ∧
      ∃ o t, G.derive .source .target 2 host { next := ⟨7⟩ } = some o ∧ o.result = .ok t ∧
        t.passes = 2 ∧ s.hasCreation = true ∧ s.Rests .source o.host ∧
        ∃ o' t', G.derive .source .target 1 o.host o.ids = some o' ∧ o'.result = .ok t' ∧
          t'.passes = 1 ∧ o'.host = o.host := by
  intro state place link seen linked s r G host
  have hG : ∀ k, G.strategy k = .backtracking := fun _ => rfl
  have hseen : seen.WellFormed := Graph.assemble_keeps_wellFormed _ _ ∅ (Graph.wellFormed_bare none)
  have hlinked : linked.WellFormed :=
    Graph.assemble_keeps_wellFormed _ _ ∅ (Graph.wellFormed_bare none)
  have hrules : ∀ r ∈ G.rules, r.graph.WellFormed :=
    List.forall_mem_cons.mpr ⟨hseen, List.forall_mem_singleton.mpr hlinked⟩
  have hhost : host.WellFormed :=
    Graph.assemble_keeps_wellFormed _ _ ∅ (Graph.wellFormed_bare none)
  have hpasses : (G.derive .source .target 2 host { next := ⟨7⟩ }).map
      (fun o => o.result.toOption.map (·.passes)) = some (some 2) := by
    decide +kernel
  obtain ⟨o, ho, hresult⟩ := Option.map_eq_some_iff.mp hpasses
  obtain ⟨t, ht, htwo⟩ := Option.map_eq_some_iff.mp hresult
  have ht := Outcome.result_eq_ok ht
  obtain ⟨hrests, hagain⟩ := derived_host_rests hG hrules hhost ho ht
  obtain ⟨o', t', ho', ht', hone, -, -, hsame, -⟩ := hagain 1 o.ids Nat.one_pos
  exact ⟨hG, hrules, hhost, o, t, ho, ht, htwo, by decide +kernel,
    hrests s List.mem_cons_self, o', t', ho', ht', hone, hsame⟩

end Grammar

end TripleGrammar
