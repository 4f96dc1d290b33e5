import TripleGrammar.Derivation
import Mathlib.Tactic.Common

/-!
# Runs of a grammar

A run is a sequence of passes. What the firings keep of the host, a pass keeps, and so does a run,
up to its end and whether or not it fails.
-/

namespace TripleGrammar

/-- Where a rule fires: the host before, the rule and the match. -/
structure Site where
  host : Graph
  rule : Rule
  found : Match

/-- How far the derivation has come with the attempt. -/
def Attempt.progress : Attempt → Progress
  | .idle p => p
  | .fired _ p => p
  | .failed _ p => p

namespace Grammar

variable {G : Grammar} {d : Domain} {p q : Progress} {r : Rule} {found : Match}

/-- The match that the next search finds for a rule. -/
def nextMatch (G : Grammar) (d : Domain) (r : Rule) (p : Progress) : Match :=
  (p.host.searchMatch r.graph d (G.strategy p.searches)).found

/-! ### Trying a rule -/

/-- The rule is fired at the match that is found, which leads to `q`. -/
structure Tries (G : Grammar) (d : Domain) (r : Rule) (p : Progress)
    (result : Except GraphError Firing) (q : Progress) : Prop where
  hasCreation : r.hasCreation = true
  found : (G.nextMatch d r p).isEmpty = false
  fire : r.fire (G.nextMatch d r p) d p.host p.ids = (result, q.host, q.ids)
  passes : q.passes = p.passes

lemma tries_of_attempt_fired (h : G.attempt d r p = .fired found q) :
    found = G.nextMatch d r p ∧ ∃ f, f.isEmpty = false ∧ G.Tries d r p (.ok f) q := by
  unfold attempt at h
  split at h
  · cases h
  next hcreation =>
    dsimp only at h
    split at h
    · cases h
    next hfound =>
      split at h
      · cases h
      next f host ids hfire =>
        split at h
        · cases h
        next hf =>
          cases h
          exact ⟨rfl, f, Bool.eq_false_iff.mpr hf, by simpa using hcreation,
            Bool.eq_false_iff.mpr hfound, hfire, rfl⟩

lemma tries_of_attempt_failed {e : GraphError} (h : G.attempt d r p = .failed e q) :
    G.Tries d r p (.error e) q := by
  unfold attempt at h
  split at h
  · cases h
  next hcreation =>
    dsimp only at h
    split at h
    · cases h
    next hfound =>
      split at h
      next e' host ids hfire =>
        cases h
        exact ⟨by simpa using hcreation, Bool.eq_false_iff.mpr hfound, hfire, rfl⟩
      · split at h <;> cases h

/-- A rule that does not count as fired is not fired at all or fires and adds nothing. -/
lemma tries_of_attempt_idle (h : G.attempt d r p = .idle q) :
    (q.host = p.host ∧ q.ids = p.ids ∧ q.passes = p.passes) ∨
      ∃ f, f.isEmpty = true ∧ G.Tries d r p (.ok f) q := by
  unfold attempt at h
  split at h
  · cases h
    exact Or.inl ⟨rfl, rfl, rfl⟩
  next hcreation =>
    dsimp only at h
    split at h
    · cases h
      exact Or.inl ⟨rfl, rfl, rfl⟩
    next hfound =>
      split at h
      · cases h
      next f host ids hfire =>
        split at h
        next hf =>
          cases h
          exact Or.inr ⟨f, hf, by simpa using hcreation, Bool.eq_false_iff.mpr hfound, hfire, rfl⟩
        · cases h

/-! What an attempt comes to, from what the search finds and how the firing there ends. -/

lemma exists_attempt_eq_idle
    (h : r.hasCreation = false ∨ (G.nextMatch d r p).isEmpty = true) :
    ∃ q, G.attempt d r p = .idle q ∧ q.host = p.host ∧ q.ids = p.ids ∧ q.passes = p.passes ∧
      q.firings = p.firings := by
  unfold attempt
  split
  · exact ⟨_, rfl, rfl, rfl, rfl, rfl⟩
  next hcreation =>
    have hempty := h.resolve_left (by simpa using hcreation)
    dsimp only
    split
    · exact ⟨_, rfl, rfl, rfl, rfl, rfl⟩
    next hfound => exact absurd hempty hfound

lemma attempt_eq (hcreation : r.hasCreation = true)
    (hfound : (G.nextMatch d r p).isEmpty = false) :
    let s := p.searched r (p.host.searchMatch r.graph d (G.strategy p.searches))
    G.attempt d r p = match r.fire (G.nextMatch d r p) d p.host p.ids with
      | (.error e, host, ids) => .failed e { s with host, ids }
      | (.ok f, host, ids) =>
        if f.isEmpty then .idle { s with host, ids }
        else .fired (G.nextMatch d r p) (({ s with host, ids } : Progress).fired r f) := by
  have hneg : ¬(!r.hasCreation) = true := by simp [hcreation]
  have hneg' : ¬(G.nextMatch d r p).isEmpty = true := by simp [hfound]
  unfold attempt
  rw [if_neg hneg]
  exact if_neg hneg'

lemma exists_attempt_of_fire_ok (hcreation : r.hasCreation = true)
    (hfound : (G.nextMatch d r p).isEmpty = false) {f : Firing} {host : Graph} {ids : IdSupply}
    (hfire : r.fire (G.nextMatch d r p) d p.host p.ids = (.ok f, host, ids)) :
    ∃ q, G.attempt d r p = (if f.isEmpty then .idle q else .fired (G.nextMatch d r p) q) ∧
      q.host = host ∧ q.ids = ids ∧ q.passes = p.passes ∧
      q.firings = if f.isEmpty then p.firings
        else p.firings.insert r.name ((p.firings.get? r.name).getD 0 + 1) := by
  have hattempt := attempt_eq hcreation hfound
  rw [hfire] at hattempt
  dsimp only at hattempt
  rw [hattempt]
  cases f.isEmpty with
  | true =>
    simp only [if_true]
    exact ⟨_, rfl, rfl, rfl, rfl, rfl⟩
  | false =>
    simp only [Bool.false_eq_true, if_false]
    exact ⟨_, rfl, rfl, rfl, rfl, rfl⟩

lemma ids_progress_attempt (hcreation : r.hasCreation = true)
    (hfound : (G.nextMatch d r p).isEmpty = false) :
    (G.attempt d r p).progress.ids = (r.fire (G.nextMatch d r p) d p.host p.ids).2.2 := by
  rw [attempt_eq hcreation hfound]
  rcases r.fire (G.nextMatch d r p) d p.host p.ids with ⟨result, host, ids⟩
  cases result with
  | error e => rfl
  | ok f =>
    dsimp only
    split <;> rfl

/-! ### What firings keep -/

variable {P : Graph → Prop}

/-- A rule that fires at a match that is found for it keeps the property of the host, whether or not
it fails. -/
def FiringsKeep (G : Grammar) (d : Domain) (P : Graph → Prop) : Prop :=
  ∀ r ∈ G.rules, ∀ p q result, P p.host → G.Tries d r p result q → P q.host

lemma attempt_keeps (hP : G.FiringsKeep d P) (hr : r ∈ G.rules) (hp : P p.host) :
    match G.attempt d r p with
    | .idle q => P q.host
    | .fired _ q => P q.host
    | .failed _ q => P q.host := by
  split
  next q hq =>
    rcases tries_of_attempt_idle hq with ⟨hhost, -, -⟩ | ⟨f, -, htries⟩
    · rw [hhost]
      exact hp
    · exact hP r hr p q _ hp htries
  next found q hq =>
    obtain ⟨-, f, -, htries⟩ := tries_of_attempt_fired hq
    exact hP r hr p q _ hp htries
  next e q hq => exact hP r hr p q _ hp (tries_of_attempt_failed hq)

lemma pass_keeps (hP : G.FiringsKeep d P) {rules : List Rule} (hrules : rules ⊆ G.rules)
    (hp : P p.host) : P (G.pass d rules p).progress.host := by
  induction rules generalizing p with
  | nil => exact hp
  | cons r rules ih =>
    obtain ⟨hr, hrest⟩ := List.cons_subset.mp hrules
    have hattempt := attempt_keeps hP hr hp
    unfold pass
    cases h : G.attempt d r p with
    | idle q =>
      rw [h] at hattempt
      exact ih hrest hattempt
    | fired found q =>
      rw [h] at hattempt
      exact hattempt
    | failed e q =>
      rw [h] at hattempt
      exact hattempt

lemma run_keeps (hP : G.FiringsKeep d P) {fuel : Nat} {ending : Ending} (hp : P p.host)
    (h : G.run d fuel p = some (ending, q)) : P q.host := by
  induction fuel generalizing p with
  | zero => cases h
  | succ fuel ih =>
    have hpass := pass_keeps hP (List.Subset.refl _) (p := p.beginPass) hp
    unfold run at h
    cases hend : G.pass d G.rules p.beginPass with
    | fired r found q' =>
      rw [hend] at h hpass
      exact ih hpass h
    | ended ending' q' =>
      rw [hend] at h hpass
      cases h
      exact hpass

/-- The passes that begin with `p` lead to `q`, and the rules fire at the given sites on the way. -/
inductive Leads (G : Grammar) (d : Domain) (p : Progress) : List Site → Progress → Prop where
  | start : Leads G d p [] p
  | fired {sites : List Site} {q q' : Progress} {r : Rule} {found : Match}
      (before : Leads G d p sites q)
      (pass : G.pass d G.rules q.beginPass = .fired r found q') :
      Leads G d p (sites ++ [⟨q.host, r, found⟩]) q'

lemma Leads.keeps (hP : G.FiringsKeep d P) {sites : List Site} (h : G.Leads d p sites q)
    (hp : P p.host) : P q.host := by
  induction h with
  | start => exact hp
  | @fired sites q q' r found _ hpass ih =>
    have hkeep := pass_keeps hP (List.Subset.refl _) (p := q.beginPass) ih
    rw [hpass] at hkeep
    exact hkeep

/-- A run that comes to an end within `fuel` passes has fewer firings behind it when the last of
them begins. -/
lemma exists_leads_lt_of_run {sites : List Site} {fuel : Nat} {ending : Ending} {q' : Progress}
    (hq : G.Leads d p sites q) (h : G.run d fuel q = some (ending, q')) :
    ∃ sites' q, G.Leads d p sites' q ∧ G.pass d G.rules q.beginPass = .ended ending q' ∧
      sites'.length < sites.length + fuel := by
  induction fuel generalizing sites q with
  | zero => cases h
  | succ fuel ih =>
    unfold run at h
    cases hpass : G.pass d G.rules q.beginPass with
    | fired r found q₁ =>
      rw [hpass] at h
      obtain ⟨sites', q₂, hq₂, hlast, hlt⟩ := ih (hq.fired hpass) h
      rw [List.length_append, List.length_singleton] at hlt
      exact ⟨sites', q₂, hq₂, hlast, by omega⟩
    | ended ending' q₁ =>
      rw [hpass] at h
      cases h
      exact ⟨sites, q, hq, hpass, by omega⟩

lemma exists_leads_of_run {sites : List Site} {fuel : Nat} {ending : Ending} {q' : Progress}
    (hq : G.Leads d p sites q) (h : G.run d fuel q = some (ending, q')) :
    ∃ sites q, G.Leads d p sites q ∧ G.pass d G.rules q.beginPass = .ended ending q' := by
  obtain ⟨sites', q, hq, hlast, -⟩ := exists_leads_lt_of_run hq h
  exact ⟨sites', q, hq, hlast⟩

/-! ### The attempts of a pass -/

/-- What idle attempts keep holds when a rule fires. -/
lemma exists_attempt_of_pass_fired {I : Progress → Prop} {rules : List Rule}
    (hidle : ∀ r ∈ rules, ∀ p q, I p → G.attempt d r p = .idle q → I q) (hp : I p)
    (h : G.pass d rules p = .fired r found q) :
    r ∈ rules ∧ ∃ p', I p' ∧ G.attempt d r p' = .fired found q := by
  induction rules generalizing p with
  | nil => cases h
  | cons r' rules ih =>
    unfold pass at h
    cases hattempt : G.attempt d r' p with
    | idle p' =>
      rw [hattempt] at h
      obtain ⟨hr, hfired⟩ := ih (fun r hr => hidle r (List.mem_cons_of_mem _ hr))
        (hidle r' List.mem_cons_self p p' hp hattempt) h
      exact ⟨List.mem_cons_of_mem _ hr, hfired⟩
    | fired found' q' =>
      rw [hattempt] at h
      cases h
      exact ⟨List.mem_cons_self, p, hp, hattempt⟩
    | failed e q' =>
      rw [hattempt] at h
      cases h

/-- What idle attempts keep holds at the end of a pass in which no rule fires. -/
lemma of_pass_settled {I : Progress → Prop} {rules : List Rule}
    (hidle : ∀ r ∈ rules, ∀ p q, I p → G.attempt d r p = .idle q → I q) (hp : I p)
    (h : G.pass d rules p = .ended .settled q) : I q := by
  induction rules generalizing p with
  | nil =>
    cases h
    exact hp
  | cons r rules ih =>
    unfold pass at h
    cases hattempt : G.attempt d r p with
    | idle p' =>
      rw [hattempt] at h
      exact ih (fun r hr => hidle r (List.mem_cons_of_mem _ hr))
        (hidle r List.mem_cons_self p p' hp hattempt) h
    | fired found p' =>
      rw [hattempt] at h
      cases h
    | failed e p' =>
      rw [hattempt] at h
      cases h

/-- The rules before the one that fires leave the host alone, if a firing that adds nothing does. -/
lemma pass_fired {rules : List Rule}
    (hidle : ∀ r ∈ rules, ∀ p q f, P p.host → f.isEmpty = true → G.Tries d r p (.ok f) q →
      q.host = p.host)
    (hp : P p.host) (h : G.pass d rules p = .fired r found q) :
    r ∈ rules ∧ ∃ p', p'.host = p.host ∧ found = G.nextMatch d r p' ∧
      ∃ f, f.isEmpty = false ∧ G.Tries d r p' (.ok f) q := by
  have hsame : ∀ r ∈ rules, ∀ p₁ q₁, p₁.host = p.host → G.attempt d r p₁ = .idle q₁ →
      q₁.host = p.host := by
    intro r hr p₁ q₁ hp₁ hattempt
    rcases tries_of_attempt_idle hattempt with ⟨hhost, -, -⟩ | ⟨f, hf, htries⟩
    · exact hhost.trans hp₁
    · exact (hidle r hr p₁ q₁ f (hp₁ ▸ hp) hf htries).trans hp₁
  obtain ⟨hr, p', hhost, hattempt⟩ := exists_attempt_of_pass_fired hsame rfl h
  obtain ⟨hfound, hfired⟩ := tries_of_attempt_fired hattempt
  exact ⟨hr, p', hhost, hfound, hfired⟩

/-! ### Counting passes -/

lemma passes_of_attempt_idle (h : G.attempt d r p = .idle q) : q.passes = p.passes := by
  rcases tries_of_attempt_idle h with ⟨-, -, hpasses⟩ | ⟨f, -, htries⟩
  · exact hpasses
  · exact htries.passes

lemma passes_pass (rules : List Rule) : (G.pass d rules p).progress.passes = p.passes := by
  induction rules generalizing p with
  | nil => rfl
  | cons r rules ih =>
    unfold pass
    cases hattempt : G.attempt d r p with
    | idle q => exact ih.trans (passes_of_attempt_idle hattempt)
    | fired found q =>
      obtain ⟨-, f, -, htries⟩ := tries_of_attempt_fired hattempt
      exact htries.passes
    | failed e q => exact (tries_of_attempt_failed hattempt).passes

lemma Leads.passes {sites : List Site} (h : G.Leads d p sites q) :
    q.passes = p.passes + sites.length := by
  induction h with
  | start => rfl
  | @fired sites q q' r found _ hpass ih =>
    have hpasses := @passes_pass G d q.beginPass G.rules
    rw [hpass] at hpasses
    change q'.passes = q.passes + 1 at hpasses
    rw [List.length_append, List.length_singleton]
    omega

/-- If no run fires more than `N` times, the run ends in one pass more at most. -/
lemma run_of_bounded {N : Nat} (hbound : ∀ sites q, G.Leads d p sites q → sites.length ≤ N) :
    ∃ ending q, q.passes ≤ p.passes + N + 1 ∧
      ∀ fuel, N + 1 ≤ fuel → G.run d fuel p = some (ending, q) := by
  -- the passes that are left, from any point that the run comes to
  have hrest : ∀ k sites q, G.Leads d p sites q → N < sites.length + k →
      ∃ ending q', q'.passes ≤ p.passes + N + 1 ∧
        ∀ fuel, k ≤ fuel → G.run d fuel q = some (ending, q') := by
    intro k
    induction k with
    | zero =>
      intro sites q hq hk
      have hle := hbound sites q hq
      omega
    | succ k ih =>
      intro sites q hq hk
      cases hpass : G.pass d G.rules q.beginPass with
      | fired r found q' =>
        obtain ⟨ending, q'', hle, hrun⟩ := ih _ q' (hq.fired hpass) (by
          rw [List.length_append, List.length_singleton]
          omega)
        refine ⟨ending, q'', hle, fun fuel hfuel => ?_⟩
        obtain ⟨fuel, rfl⟩ := Nat.exists_eq_add_of_le' (Nat.lt_of_lt_of_le k.succ_pos hfuel)
        unfold run
        rw [hpass]
        exact hrun fuel (by omega)
      | ended ending q' =>
        have hpasses := @passes_pass G d q.beginPass G.rules
        rw [hpass] at hpasses
        change q'.passes = q.passes + 1 at hpasses
        have hle := hbound sites q hq
        have hq' := hq.passes
        refine ⟨ending, q', by omega, fun fuel hfuel => ?_⟩
        obtain ⟨fuel, rfl⟩ := Nat.exists_eq_add_of_le' (Nat.lt_of_lt_of_le k.succ_pos hfuel)
        unfold run
        rw [hpass]
  obtain ⟨ending, q, hle, hrun⟩ := hrest (N + 1) [] p Leads.start (by simp)
  exact ⟨ending, q, hle, hrun⟩

/-! ### Outcomes -/

lemma graph_of_output {host graph : Graph} {writes : Domain} {events : List Event}
    (h : G.output host writes = .ok (graph, events)) :
    graph = host ∨ ∃ pruned, host.prune writes = .ok pruned ∧ graph = pruned.graph := by
  unfold output at h
  split at h
  · cases hprune : host.prune writes with
    | error e =>
      rw [hprune] at h
      cases h
    | ok pruned =>
      rw [hprune] at h
      cases h
      exact Or.inr ⟨pruned, rfl, rfl⟩
  · cases h
    exact Or.inl rfl

lemma output_of_prune {host : Graph} {writes : Domain} {pruned : Pruned}
    (hpolicy : G.policy.prune = true) (h : host.prune writes = .ok pruned) :
    G.output host writes = .ok (pruned.graph, [pruned.event writes]) := by
  unfold output
  rw [if_pos hpolicy, h]
  rfl

lemma output_of_prune_error {host : Graph} {writes : Domain} {e : DerivationError}
    (hpolicy : G.policy.prune = true) (h : host.prune writes = .error e) :
    G.output host writes = .error e := by
  unfold output
  rw [if_pos hpolicy, h]
  rfl

lemma host_finish {reads writes : Domain} : (G.finish reads writes q).host = q.host := by
  unfold finish
  split <;> rfl

lemma output_of_finish {reads writes : Domain} {t : Derivation}
    (h : (G.finish reads writes q).result = .ok t) :
    ∃ events, G.output q.host writes = .ok (t.graph, events) := by
  unfold finish at h
  split at h
  · cases h
  next graph events houtput =>
    cases h
    exact ⟨events, houtput⟩

lemma passes_of_finish {reads writes : Domain} {t : Derivation}
    (h : (G.finish reads writes q).result = .ok t) : t.passes = q.passes := by
  unfold finish at h
  split at h
  · cases h
  · cases h
    rfl

/-- A derivation that comes to an end leaves the host as a run of its passes does, and returns that
host or what pruning makes of it. -/
lemma exists_run_of_derive {reads writes : Domain} {fuel : Nat} {host : Graph} {ids : IdSupply}
    {o : Outcome} (h : G.derive reads writes fuel host ids = some o) :
    ∃ ending q, G.run reads fuel { host, ids } = some (ending, q) ∧ o.host = q.host ∧
      ∀ t, o.result = .ok t → t.graph = q.host ∨
        ∃ pruned, q.host.prune writes = .ok pruned ∧ t.graph = pruned.graph := by
  unfold derive at h
  split at h
  · cases h
  next e q hrun =>
    cases h
    exact ⟨_, q, hrun, rfl, fun t ht => by cases ht⟩
  next q hrun =>
    cases h
    refine ⟨_, q, hrun, host_finish, fun t ht => ?_⟩
    obtain ⟨events, houtput⟩ := output_of_finish ht
    exact graph_of_output houtput

lemma prune_of_output_error {host : Graph} {writes : Domain} {e : DerivationError}
    (h : G.output host writes = .error e) : host.prune writes = .error e := by
  unfold output at h
  split at h
  · cases hprune : host.prune writes with
    | error e' =>
      rw [hprune] at h
      cases h
      rfl
    | ok pruned =>
      rw [hprune] at h
      cases h
  · cases h

/-- A derivation fails as the run of its passes does, or in pruning what the run has left. -/
lemma exists_run_of_derive_error {reads writes : Domain} {fuel : Nat} {host : Graph}
    {ids : IdSupply} {o : Outcome} {e : DerivationError}
    (h : G.derive reads writes fuel host ids = some o) (ho : o.result = .error e) :
    ∃ ending q, G.run reads fuel { host, ids } = some (ending, q) ∧ o.host = q.host ∧
      ((∃ err, ending = .failed err ∧ e = .graph err) ∨
        (ending = .settled ∧ q.host.prune writes = .error e)) := by
  unfold derive at h
  split at h
  · cases h
  next err q hrun =>
    cases h
    cases ho
    exact ⟨_, q, hrun, rfl, Or.inl ⟨err, rfl, rfl⟩⟩
  next q hrun =>
    cases h
    refine ⟨_, q, hrun, host_finish, Or.inr ⟨rfl, ?_⟩⟩
    unfold finish at ho
    split at ho
    next e' houtput =>
      cases ho
      exact prune_of_output_error houtput
    · cases ho

/-- The end of a run decides what the derivation comes to, however many passes it was given. -/
lemma exists_outcome (G : Grammar) (reads writes : Domain) (host : Graph) (ids : IdSupply)
    (ending : Ending) (q : Progress) :
    ∃ o, (∀ fuel, G.run reads fuel { host, ids } = some (ending, q) →
        G.derive reads writes fuel host ids = some o) ∧
      ∀ t, o.result = .ok t → t.passes = q.passes := by
  cases ending with
  | settled =>
    refine ⟨G.finish reads writes q, fun fuel hrun => ?_, fun t ht => passes_of_finish ht⟩
    unfold derive
    rw [hrun]
  | failed e =>
    refine ⟨{ result := .error (.graph e), host := q.host, ids := q.ids, events := q.events },
      fun fuel hrun => ?_, fun t ht => ?_⟩
    · unfold derive
      rw [hrun]
    · cases ht

end Grammar

end TripleGrammar
