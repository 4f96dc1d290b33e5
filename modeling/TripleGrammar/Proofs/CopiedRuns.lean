import TripleGrammar.Proofs.CopiedFirings
import TripleGrammar.Proofs.CopiedPrunings
import TripleGrammar.Proofs.FixedPoints

/-!
# Derivations from a graph and from a copy

A derivation from a copy of a host takes the same course as the one from the host: in each pass the
same rule fires at the same place, and the ids that are drawn at the same turn correspond. So both
end after the same number of passes or neither ends, and what they leave and return is the same up
to ids.
-/

namespace TripleGrammar.Grammar

variable {G : Grammar} {d reads : Domain} {r : Rule} {rules : List Rule} {g h : Graph}
  {ids ids' : IdSupply} {σ : NodeId → NodeId} {p p' q q' : Progress} {fuel : Nat}

/-! ### Supplies that last -/

/-- No pass draws so many ids that the supply starts over. -/
def SupplyLasts (G : Grammar) (d : Domain) (p : Progress) : Prop :=
  ∀ sites q, G.Leads d p sites q →
    q.ids.next.raw ≤ (G.pass d G.rules q.beginPass).progress.ids.next.raw

/-- Whether the run ends within so many passes, none of which makes the supply start over. -/
def lastsFor (G : Grammar) (d : Domain) : Nat → Progress → Bool
  | 0, _ => false
  | fuel + 1, p =>
    decide (p.ids.next.raw ≤ (G.pass d G.rules p.beginPass).progress.ids.next.raw) &&
      match G.pass d G.rules p.beginPass with
      | .fired _ _ q => G.lastsFor d fuel q
      | .ended _ _ => true

lemma supplyLasts_of_lastsFor (fuel : Nat) (hp : G.lastsFor d fuel p = true) :
    G.SupplyLasts d p := by
  have hrest : ∀ sites q, G.Leads d p sites q → ∃ fuel, G.lastsFor d fuel q = true := by
    intro sites q hq
    induction hq with
    | start => exact ⟨fuel, hp⟩
    | @fired _ q q' _ _ _ hpass ih =>
      obtain ⟨fuel, hfuel⟩ := ih
      cases fuel with
      | zero => cases hfuel
      | succ fuel =>
        unfold lastsFor at hfuel
        rw [hpass, Bool.and_eq_true] at hfuel
        exact ⟨fuel, hfuel.2⟩
  intro sites q hq
  obtain ⟨fuel, hfuel⟩ := hrest sites q hq
  cases fuel with
  | zero => cases hfuel
  | succ fuel =>
    unfold lastsFor at hfuel
    exact of_decide_eq_true (Bool.and_eq_true_iff.mp hfuel).1

/-! ### One step of both runs -/

/-- `h` is a copy of `g`, and the supplies have given out as many ids since the one was `ids` and
the other `ids'`. -/
structure Follows (σ : NodeId → NodeId) (ids ids' : IdSupply) (g : Graph) (s : IdSupply) (h : Graph)
    (s' : IdSupply) : Prop where
  wellFormed : g.WellFormed
  wellFormed' : h.WellFormed
  copies : h.Copies g (ids.rebase ids' σ)
  beyond : s.Beyond g
  beyond' : s'.Beyond h
  drawn : ∃ k, ids.next.raw.toNat + k < 2 ^ 64 ∧ s = ids.skip k ∧ s' = ids'.skip k

lemma Follows.fire {s s' : IdSupply} {found found' : Match} (hf : Follows σ ids ids' g s h s')
    (hrule : r.graph.WellFormed) (hfits : g.Fits r.graph d found)
    (hfits' : h.Fits r.graph d found') (hfound : found.isEmpty = false)
    (hsame : ∀ k, found'.get? k = (found.get? k).map (ids.rebase ids' σ))
    (hroom : s.next.raw ≤ (r.fire found d g s).2.2.next.raw)
    (hroom' : s'.next.raw ≤ (r.fire found' d h s').2.2.next.raw) :
    ∃ f g₁ s₁ h₁ s₁', r.fire found d g s = (.ok f, g₁, s₁) ∧
      r.fire found' d h s' = (.ok f, h₁, s₁') ∧ Follows σ ids ids' g₁ s₁ h₁ s₁' := by
  have hfound' : found'.isEmpty = false := (Graph.Copies.isEmpty_eq hsame).trans hfound
  obtain ⟨f, g₁, hfire, hlt, hbeyond⟩ :=
    Rule.exists_fire_eq_ok hrule hf.wellFormed hfits hfound hf.beyond hroom
  obtain ⟨f', h₁, hfire', -, hbeyond'⟩ :=
    Rule.exists_fire_eq_ok hrule hf.wellFormed' hfits' hfound' hf.beyond' hroom'
  obtain ⟨k, hk, rfl, rfl⟩ := hf.drawn
  rw [IdSupply.toNat_next_skip, Nat.mod_eq_of_lt hk] at hlt
  have hdraws := @IdSupply.map_rebase_draws ids ids' σ (r.newTemplates d).length k (by omega)
  obtain ⟨rfl, hcopies⟩ := Rule.fire_copies hrule hf.wellFormed hf.wellFormed' hf.copies hfits
    hfits' hsame hdraws.symm hfire hfire'
  have hwf : (r.fire found d g (ids.skip k)).2.1.WellFormed := Rule.wellFormed_fire hf.wellFormed
  have hwf' : (r.fire found' d h (ids'.skip k)).2.1.WellFormed :=
    Rule.wellFormed_fire hf.wellFormed'
  rw [hfire] at hwf
  rw [hfire'] at hwf'
  refine ⟨f', g₁, _, h₁, _, hfire, hfire', hwf, hwf', hcopies, hbeyond, hbeyond',
    k + (r.newTemplates d).length, by omega, ?_, ?_⟩
  · rw [IdSupply.skip_skip]
  · rw [IdSupply.skip_skip]

/-- The derivations from a graph and from a copy have come equally far. -/
structure Tracks (σ : NodeId → NodeId) (ids ids' : IdSupply) (p p' : Progress) : Prop where
  follows : Follows σ ids ids' p.host p.ids p'.host p'.ids
  passes : p'.passes = p.passes
  firings : p'.firings = p.firings

lemma Tracks.attempt (ht : Tracks σ ids ids' p p') (hG : ∀ k, G.strategy k = .backtracking)
    (hrule : r.graph.WellFormed)
    (hroom : p.ids.next.raw ≤ (G.attempt d r p).progress.ids.next.raw)
    (hroom' : p'.ids.next.raw ≤ (G.attempt d r p').progress.ids.next.raw) :
    (∃ q q', G.attempt d r p = .idle q ∧ G.attempt d r p' = .idle q' ∧ Tracks σ ids ids' q q') ∨
      ∃ found found' q q', G.attempt d r p = .fired found q ∧ G.attempt d r p' = .fired found' q' ∧
        Tracks σ ids ids' q q' := by
  have hsound : ∀ k, (G.strategy k).Sound := fun k => hG k ▸ Strategy.backtracking_sound
  have hf := ht.follows
  have hsame : ∀ k, (G.nextMatch d r p').get? k =
      ((G.nextMatch d r p).get? k).map (ids.rebase ids' σ) := by
    unfold nextMatch
    rw [hG, hG]
    exact hf.copies.get?_searchMatch hf.wellFormed hf.wellFormed' r.graph d .backtracking
  have hempty := Graph.Copies.isEmpty_eq hsame
  by_cases hidle : r.hasCreation = false ∨ (G.nextMatch d r p).isEmpty = true
  · obtain ⟨q, hq, hhost, hids, hpasses, hfirings⟩ := exists_attempt_eq_idle hidle
    rw [← hempty] at hidle
    obtain ⟨q', hq', hhost', hids', hpasses', hfirings'⟩ := exists_attempt_eq_idle hidle
    refine Or.inl ⟨q, q', hq, hq', ?_, ?_, ?_⟩
    · rw [hhost, hids, hhost', hids']
      exact hf
    · rw [hpasses, hpasses', ht.passes]
    · rw [hfirings, hfirings', ht.firings]
  · obtain ⟨hcreation, hfound⟩ := not_or.mp hidle
    rw [Bool.not_eq_false] at hcreation
    rw [Bool.not_eq_true] at hfound
    have hfound' := hempty.trans hfound
    have hfits := (fits_nextMatch hsound hrule hf.wellFormed hfound).1
    have hfits' := (fits_nextMatch hsound hrule hf.wellFormed' hfound').1
    rw [ids_progress_attempt hcreation hfound] at hroom
    rw [ids_progress_attempt hcreation hfound'] at hroom'
    obtain ⟨f, g₁, s₁, h₁, s₁', hfire, hfire', hfollows⟩ :=
      hf.fire hrule hfits hfits' hfound hsame hroom hroom'
    obtain ⟨q, hq, rfl, rfl, hpasses, hfirings⟩ := exists_attempt_of_fire_ok hcreation hfound hfire
    obtain ⟨q', hq', rfl, rfl, hpasses', hfirings'⟩ :=
      exists_attempt_of_fire_ok hcreation hfound' hfire'
    have htracks : Tracks σ ids ids' q q' :=
      ⟨hfollows, by rw [hpasses, hpasses', ht.passes], by rw [hfirings, hfirings', ht.firings]⟩
    cases hempty : f.isEmpty with
    | true =>
      rw [hempty] at hq hq'
      exact Or.inl ⟨q, q', hq, hq', htracks⟩
    | false =>
      rw [hempty] at hq hq'
      exact Or.inr ⟨_, _, q, q', hq, hq', htracks⟩

/-! ### Passes and runs -/

/-- In a pass ids are drawn only by the rule that fires. -/
lemma le_next_attempt (hG : ∀ k, G.strategy k = .backtracking) (hrule : r.graph.WellFormed)
    (hp : p.host.WellFormed)
    (hroom : p.ids.next.raw ≤ (G.pass d (r :: rules) p).progress.ids.next.raw) :
    p.ids.next.raw ≤ (G.attempt d r p).progress.ids.next.raw := by
  unfold pass at hroom
  cases hattempt : G.attempt d r p with
  | idle q =>
    obtain ⟨-, -, hids⟩ := rests_of_attempt_idle hG hrule hp hattempt
    change p.ids.next.raw ≤ q.ids.next.raw
    rw [hids]
    exact UInt64.le_refl _
  | fired found q =>
    rw [hattempt] at hroom
    exact hroom
  | failed e q =>
    rw [hattempt] at hroom
    exact hroom

lemma Tracks.pass (ht : Tracks σ ids ids' p p') (hG : ∀ k, G.strategy k = .backtracking)
    (hrules : ∀ r ∈ rules, r.graph.WellFormed)
    (hroom : p.ids.next.raw ≤ (G.pass d rules p).progress.ids.next.raw)
    (hroom' : p'.ids.next.raw ≤ (G.pass d rules p').progress.ids.next.raw) :
    (∃ q q', G.pass d rules p = .ended .settled q ∧ G.pass d rules p' = .ended .settled q' ∧
        Tracks σ ids ids' q q') ∨
      ∃ r found found' q q', G.pass d rules p = .fired r found q ∧
        G.pass d rules p' = .fired r found' q' ∧ Tracks σ ids ids' q q' := by
  induction rules generalizing p p' with
  | nil => exact Or.inl ⟨p, p', rfl, rfl, ht⟩
  | cons r rules ih =>
    obtain ⟨hrule, hrest⟩ := List.forall_mem_cons.mp hrules
    have hwf := ht.follows.wellFormed
    have hwf' := ht.follows.wellFormed'
    rcases ht.attempt hG hrule (le_next_attempt hG hrule hwf hroom)
      (le_next_attempt hG hrule hwf' hroom') with
      ⟨q, q', hq, hq', htracks⟩ | ⟨found, found', q, q', hq, hq', htracks⟩
    · obtain ⟨-, -, hids⟩ := rests_of_attempt_idle hG hrule hwf hq
      obtain ⟨-, -, hids'⟩ := rests_of_attempt_idle hG hrule hwf' hq'
      unfold Grammar.pass at hroom hroom' ⊢
      rw [hq] at hroom ⊢
      rw [hq'] at hroom' ⊢
      rw [← hids] at hroom
      rw [← hids'] at hroom'
      exact ih htracks hrest hroom hroom'
    · unfold Grammar.pass
      rw [hq, hq']
      exact Or.inr ⟨r, found, found', q, q', rfl, rfl, htracks⟩

lemma Tracks.run (ht : Tracks σ ids ids' q q') (hG : ∀ k, G.strategy k = .backtracking)
    (hrules : ∀ r ∈ G.rules, r.graph.WellFormed) (hlast : G.SupplyLasts d p)
    (hlast' : G.SupplyLasts d p') {sites sites' : List Site} (hq : G.Leads d p sites q)
    (hq' : G.Leads d p' sites' q') (fuel : Nat) :
    (G.run d fuel q = none ∧ G.run d fuel q' = none) ∨
      ∃ t t', G.run d fuel q = some (.settled, t) ∧ G.run d fuel q' = some (.settled, t') ∧
        Tracks σ ids ids' t t' := by
  induction fuel generalizing sites sites' q q' with
  | zero => exact Or.inl ⟨rfl, rfl⟩
  | succ fuel ih =>
    have hbegin : Tracks σ ids ids' q.beginPass q'.beginPass :=
      ⟨ht.follows, congrArg (· + 1) ht.passes, ht.firings⟩
    unfold Grammar.run
    rcases hbegin.pass hG hrules (hlast sites q hq) (hlast' sites' q' hq') with
      ⟨t, t', hpass, hpass', htracks⟩ | ⟨r, found, found', t, t', hpass, hpass', htracks⟩
    · rw [hpass, hpass']
      exact Or.inr ⟨t, t', rfl, rfl, htracks⟩
    · rw [hpass, hpass']
      exact ih htracks (hq.fired hpass) (hq'.fired hpass')

/-! ### Derivations -/

/-- What is returned after both runs. -/
lemma Tracks.output (ht : Tracks σ ids ids' q q') (G : Grammar) (writes : Domain) :
    (∃ c s t, G.output q.host writes = .error (.defaultArity c s t) ∧
        G.output q'.host writes = .error (.defaultArity (ids.rebase ids' σ c) s t)) ∨
      ∃ a a' events events', G.output q.host writes = .ok (a, events) ∧
        G.output q'.host writes = .ok (a', events') ∧ a.WellFormed ∧ a'.WellFormed ∧
        a'.Copies a (ids.rebase ids' σ) := by
  have hf := ht.follows
  unfold Grammar.output
  cases G.policy.prune with
  | false =>
    exact Or.inr ⟨q.host, q'.host, [], [], rfl, rfl, hf.wellFormed, hf.wellFormed', hf.copies⟩
  | true =>
    rcases hf.copies.prune hf.wellFormed hf.wellFormed' writes with
      ⟨c, s, t, herror, herror'⟩ | ⟨a, a', ha, ha', hcopies⟩
    · rw [herror, herror']
      exact Or.inl ⟨c, s, t, rfl, rfl⟩
    · rw [ha, ha']
      exact Or.inr ⟨a.graph, a'.graph, _, _, rfl, rfl, Graph.wellFormed_of_prune ha,
        Graph.wellFormed_of_prune ha', hcopies⟩

/-- `h` is `g` with other ids, and no supply gives out an id that is in use. Then the derivations
from the two end after the same number of passes, if at all, with the same firings, and they fail
alike or return what is a copy again, by a replacement of ids that goes on from the given one and
sends the ids that the one run has drawn to those that the other has. -/
theorem derive_copies (hG : ∀ k, G.strategy k = .backtracking)
    (hrules : ∀ r ∈ G.rules, r.graph.WellFormed) (hg : g.WellFormed) (hh : h.WellFormed)
    (hc : h.Copies g σ) (hbeyond : ids.Beyond g) (hbeyond' : ids'.Beyond h)
    (hlast : G.SupplyLasts reads { host := g, ids })
    (hlast' : G.SupplyLasts reads { host := h, ids := ids' }) (writes : Domain) (fuel : Nat) :
    (G.derive reads writes fuel g ids).isSome = (G.derive reads writes fuel h ids').isSome ∧
    ∀ o o', G.derive reads writes fuel g ids = some o →
      G.derive reads writes fuel h ids' = some o' →
      ∃ τ k, (∀ n ∈ g.nodes, τ n.id = σ n.id) ∧ o.ids = ids.skip k ∧ o'.ids = ids'.skip k ∧
        (ids.draws k).map τ = ids'.draws k ∧ o'.host.Copies o.host τ ∧
        ((∃ t t', o.result = .ok t ∧ o'.result = .ok t' ∧ t'.passes = t.passes ∧
            t'.firings = t.firings ∧ t'.graph.Copies t.graph τ ∧
            t'.graph.structureHash = t.graph.structureHash ∧
            t.graph.isIsomorphicTo t'.graph = true) ∨
          ∃ c s t, o.result = .error (.defaultArity c s t) ∧
            o'.result = .error (.defaultArity (τ c) s t)) := by
  have hold : ∀ n ∈ g.nodes, ids.rebase ids' σ n.id = σ n.id :=
    fun n hn => IdSupply.rebase_of_lt (hbeyond n hn)
  have hstart : Tracks σ ids ids' { host := g, ids } { host := h, ids := ids' } :=
    ⟨⟨hg, hh, hc.congr hg hold, hbeyond, hbeyond', 0, ids.next.raw.toNat_lt, rfl, rfl⟩, rfl, rfl⟩
  unfold derive
  rcases hstart.run hG hrules hlast hlast' Leads.start Leads.start fuel with
    ⟨hrun, hrun'⟩ | ⟨q, q', hrun, hrun', htracks⟩
  · rw [hrun, hrun']
    exact ⟨rfl, fun o o' ho => by cases ho⟩
  · rw [hrun, hrun']
    refine ⟨rfl, ?_⟩
    rintro o o' ho ho'
    obtain rfl := Option.some.inj ho
    obtain rfl := Option.some.inj ho'
    obtain ⟨k, hk, hids, hids'⟩ := htracks.follows.drawn
    refine ⟨ids.rebase ids' σ, k, hold, ids_finish.trans hids, ids_finish.trans hids',
      @IdSupply.map_rebase_draws ids ids' σ k 0 (by omega), ?_, ?_⟩
    · rw [host_finish, host_finish]
      exact htracks.follows.copies
    · rcases htracks.output G writes with
        ⟨c, s, t, herror, herror'⟩ | ⟨a, a', events, events', ha, ha', hwf, hwf', hcopies⟩
      · exact Or.inr ⟨c, s, t, finish_of_output_error herror, finish_of_output_error herror'⟩
      · obtain ⟨t, ht, rfl, hpasses, hfirings⟩ := finish_of_output reads ha
        obtain ⟨t', ht', rfl, hpasses', hfirings'⟩ := finish_of_output reads ha'
        refine Or.inl ⟨t, t', ht, ht', ?_, ?_, hcopies, ?_, hcopies.isIsomorphicTo hwf hwf'⟩
        · rw [hpasses, hpasses', htracks.passes]
        · rw [hfirings, hfirings', htracks.firings]
        · unfold Graph.structureHash
          rw [hcopies.signature_eq hwf hwf']

/-- Two signals are each given a wire, and the ids of the copy are in the opposite order. -/
theorem derive_copies_wires :
    let signal : Node := { id := ⟨0⟩, kind := "Signal", domain := .source, action := some .create }
    let wire : Node := { id := ⟨1⟩, kind := "Wire", domain := .target, action := some .create }
    let link : Node := { id := ⟨2⟩, kind := "Trace", domain := .correspondence,
                         action := some .create, isDefault := true }
    let rule := (Graph.assemble [signal, wire, link]
      [{ tail := ⟨2⟩, head := ⟨0⟩, action := some .create },
       { tail := ⟨2⟩, head := ⟨1⟩, action := some .create }]).after ∅
    let r : Rule := { name := "Axiom", graph := rule, tagged := by decide +kernel }
    let G : Grammar := { rules := [r] }
    let σ : NodeId → NodeId := fun id => ⟨100 - id.raw⟩
    let host (a b : UInt64) := (Graph.assemble
      [{ id := ⟨a⟩, kind := "Signal", domain := .source },
       { id := ⟨b⟩, kind := "Signal", domain := .source }] [{ tail := ⟨a⟩, head := ⟨b⟩ }]).after ∅
    let ids : IdSupply := { next := ⟨7⟩ }
    let ids' : IdSupply := { next := ⟨200⟩ }
    (∀ k, G.strategy k = .backtracking) ∧ (∀ r ∈ G.rules, r.graph.WellFormed) ∧
      (host 5 6).WellFormed ∧ (host 95 94).WellFormed ∧ (host 95 94).Copies (host 5 6) σ ∧
      ids.Beyond (host 5 6) ∧ ids'.Beyond (host 95 94) ∧
      G.SupplyLasts .source { host := host 5 6, ids } ∧
      G.SupplyLasts .source { host := host 95 94, ids := ids' } ∧
      ∃ o o' τ, G.derive .source .target 3 (host 5 6) ids = some o ∧
        G.derive .source .target 3 (host 95 94) ids' = some o' ∧ o'.host.Copies o.host τ ∧
        τ ⟨5⟩ = ⟨95⟩ ∧ o.ids = ids.skip 4 := by
  intro signal wire link rule r G σ host ids ids'
  have hG : ∀ k, G.strategy k = .backtracking := fun _ => rfl
  have hrule : rule.WellFormed := Graph.assemble_keeps_wellFormed _ _ ∅ (Graph.wellFormed_bare none)
  have hrules : ∀ r ∈ G.rules, r.graph.WellFormed := List.forall_mem_singleton.mpr hrule
  have hhost : ∀ a b, (host a b).WellFormed :=
    fun a b => Graph.assemble_keeps_wellFormed _ _ ∅ (Graph.wellFormed_bare none)
  have hc : (host 95 94).Copies (host 5 6) σ := ⟨rfl, by decide +kernel, by decide +kernel⟩
  have hbeyond : ids.Beyond (host 5 6) := by decide +kernel
  have hbeyond' : ids'.Beyond (host 95 94) := by decide +kernel
  have hlast : G.SupplyLasts .source { host := host 5 6, ids } :=
    supplyLasts_of_lastsFor 3 (by decide +kernel)
  have hlast' : G.SupplyLasts .source { host := host 95 94, ids := ids' } :=
    supplyLasts_of_lastsFor 3 (by decide +kernel)
  have hderive : (G.derive .source .target 3 (host 5 6) ids).map (·.ids) = some (ids.skip 4) := by
    decide +kernel
  obtain ⟨o, ho, hids⟩ := Option.map_eq_some_iff.mp hderive
  obtain ⟨hends, hcopies⟩ := derive_copies hG hrules (hhost 5 6) (hhost 95 94) hc hbeyond hbeyond'
    hlast hlast' .target 3
  rw [ho] at hends
  obtain ⟨o', ho'⟩ := Option.isSome_iff_exists.mp hends.symm
  obtain ⟨τ, k, hτ, -, -, -, hcopy, -⟩ := hcopies o o' ho ho'
  have hfirst : { id := ⟨5⟩, kind := "Signal", domain := .source } ∈ (host 5 6).nodes := by
    decide +kernel
  exact ⟨hG, hrules, hhost 5 6, hhost 95 94, hc, hbeyond, hbeyond', hlast, hlast', o, o', τ, ho,
    ho', hcopy, hτ _ hfirst, hids⟩

end TripleGrammar.Grammar
