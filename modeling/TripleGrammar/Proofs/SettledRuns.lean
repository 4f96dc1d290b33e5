import TripleGrammar.Proofs.Runs
import TripleGrammar.SortedMap.Lemmas

/-!
# Runs that settle

A run that settles has fired at some sites before the pass in which no rule fires any more. The
number of its passes and the firings that it records can be read off the rules at these sites, and
a run can be put together from what leads to some point and what goes on from there.
-/

namespace TripleGrammar

/-- What a map of counts has for something that was counted `n` times: there is no entry for what
was not counted at all. -/
def tally (n : Nat) : Option Nat := if n = 0 then none else some n

lemma tally_succ (n : Nat) : tally (n + 1) = some (n + 1) := if_neg n.succ_ne_zero

lemma getD_tally (n : Nat) : (tally n).getD 0 = n := by
  cases n with
  | zero => rfl
  | succ n => rw [tally_succ, Option.getD_some]

namespace Grammar

variable {G : Grammar} {d : Domain} {p q q' : Progress} {r : Rule} {found : Match}
  {rules : List Rule} {sites sites' : List Site}

/-! ### Counting firings -/

lemma firings_of_attempt_idle (h : G.attempt d r p = .idle q) : q.firings = p.firings := by
  unfold attempt at h
  split at h
  · cases h
    rfl
  · dsimp only at h
    split at h
    · cases h
      rfl
    · split at h
      · cases h
      · split at h
        · cases h
          rfl
        · cases h

lemma firings_of_attempt_fired (h : G.attempt d r p = .fired found q) :
    q.firings = p.firings.insert r.name ((p.firings.get? r.name).getD 0 + 1) := by
  obtain ⟨rfl, f, hf, htries⟩ := tries_of_attempt_fired h
  obtain ⟨q', hattempt, -, -, -, hfirings⟩ :=
    exists_attempt_of_fire_ok htries.hasCreation htries.found htries.fire
  simp only [hf, Bool.false_eq_true, if_false] at hattempt hfirings
  cases h.symm.trans hattempt
  exact hfirings

lemma firings_of_pass_fired (h : G.pass d rules p = .fired r found q) :
    q.firings = p.firings.insert r.name ((p.firings.get? r.name).getD 0 + 1) := by
  obtain ⟨-, p', hfirings, hattempt⟩ :=
    exists_attempt_of_pass_fired (I := fun p' => p'.firings = p.firings)
      (fun _ _ _ _ hp₁ hidle => (firings_of_attempt_idle hidle).trans hp₁) rfl h
  rw [firings_of_attempt_fired hattempt, hfirings]

lemma firings_of_pass_settled (h : G.pass d rules p = .ended .settled q) :
    q.firings = p.firings :=
  of_pass_settled (I := fun p' => p'.firings = p.firings)
    (fun _ _ _ _ hp₁ hidle => (firings_of_attempt_idle hidle).trans hp₁) rfl h

/-- A name is recorded as often as rules of that name have fired. -/
lemma Leads.firings (h : G.Leads d p sites q) (hp : p.firings = ∅) (k : String) :
    q.firings.get? k = tally ((sites.map (·.rule.name)).count k) := by
  induction h with
  | start => rw [hp]; rfl
  | @fired sites q q' r found _ hpass ih =>
    have hinsert := firings_of_pass_fired hpass
    change q'.firings = q.firings.insert r.name ((q.firings.get? r.name).getD 0 + 1) at hinsert
    rw [hinsert, List.map_append, List.count_append]
    by_cases hk : k = r.name
    · subst hk
      have hone : (List.map (·.rule.name) [(⟨q.host, r, found⟩ : Site)]).count r.name = 1 :=
        List.count_singleton_self
      rw [SortedMap.get?_insert_self, ih, getD_tally, hone, tally_succ]
    · have hnone : (List.map (·.rule.name) [(⟨q.host, r, found⟩ : Site)]).count k = 0 :=
        List.count_eq_zero.mpr (by simpa using hk)
      rw [SortedMap.get?_insert_of_ne _ _ hk, ih, hnone, Nat.add_zero]

/-! ### Putting runs together -/

lemma Leads.trans (h : G.Leads d p sites q) (h' : G.Leads d q sites' q') :
    G.Leads d p (sites ++ sites') q' := by
  induction h' with
  | start =>
    rw [List.append_nil]
    exact h
  | fired _ hpass ih =>
    rw [← List.append_assoc]
    exact ih.fired hpass

lemma Leads.run_add (h : G.Leads d p sites q) (fuel : Nat) :
    G.run d (sites.length + fuel) p = G.run d fuel q := by
  induction h generalizing fuel with
  | start => rw [List.length_nil, Nat.zero_add]
  | @fired sites q q' r found _ hpass ih =>
    rw [List.length_append, List.length_singleton, Nat.add_assoc, Nat.add_comm 1, ih, run, hpass]

/-- The run from `p` fires at the given sites and then settles in `q`. -/
def Settles (G : Grammar) (d : Domain) (p : Progress) (sites : List Site) (q : Progress) : Prop :=
  ∃ q₀, G.Leads d p sites q₀ ∧ G.pass d G.rules q₀.beginPass = .ended .settled q

lemma Leads.settles (h : G.Leads d p sites q) (h' : G.Settles d q sites' q') :
    G.Settles d p (sites ++ sites') q' := by
  obtain ⟨q₀, hleads, hpass⟩ := h'
  exact ⟨q₀, h.trans hleads, hpass⟩

lemma Settles.run (h : G.Settles d p sites q) {fuel : Nat} (hfuel : sites.length + 1 ≤ fuel) :
    G.run d fuel p = some (.settled, q) := by
  obtain ⟨q₀, hleads, hpass⟩ := h
  obtain ⟨fuel, rfl⟩ := Nat.exists_eq_add_of_le hfuel
  rw [Nat.add_assoc, hleads.run_add, Nat.add_comm]
  unfold Grammar.run
  rw [hpass]

lemma Settles.passes (h : G.Settles d p sites q) : q.passes = p.passes + sites.length + 1 := by
  obtain ⟨q₀, hleads, hpass⟩ := h
  have hpasses := @passes_pass G d q₀.beginPass G.rules
  rw [hpass] at hpasses
  change q.passes = q₀.passes + 1 at hpasses
  rw [hpasses, hleads.passes]

lemma Settles.firings (h : G.Settles d p sites q) (hp : p.firings = ∅) (k : String) :
    q.firings.get? k = tally ((sites.map (·.rule.name)).count k) := by
  obtain ⟨q₀, hleads, hpass⟩ := h
  have hsame := firings_of_pass_settled hpass
  change q.firings = q₀.firings at hsame
  rw [hsame, hleads.firings hp]

lemma Settles.derive {host : Graph} {ids : IdSupply} {reads writes : Domain}
    (h : G.Settles reads { host, ids } sites q) {fuel : Nat} (hfuel : sites.length + 1 ≤ fuel) :
    G.derive reads writes fuel host ids = some (G.finish reads writes q) := by
  unfold Grammar.derive
  rw [h.run hfuel]

/-- A run that fires only so often leads to a pass in which no rule fires. -/
lemma exists_leads_of_bounded {N : Nat}
    (hbound : ∀ sites q, G.Leads d p sites q → sites.length ≤ N) :
    ∃ sites q ending q', G.Leads d p sites q ∧
      G.pass d G.rules q.beginPass = .ended ending q' := by
  obtain ⟨ending, q', -, hrun⟩ := run_of_bounded hbound
  obtain ⟨sites, q, hleads, hpass⟩ :=
    exists_leads_of_run Leads.start (hrun (N + 1) (Nat.le_refl _))
  exact ⟨sites, q, ending, q', hleads, hpass⟩

/-! ### More rules behind the others -/

lemma attempt_with (rules : List Rule) :
    ({ G with rules } : Grammar).attempt d r p = G.attempt d r p := rfl

lemma pass_with (rules' : List Rule) :
    ({ G with rules := rules' } : Grammar).pass d rules p = G.pass d rules p := by
  induction rules generalizing p with
  | nil => rfl
  | cons r rules ih =>
    unfold pass
    rw [attempt_with]
    cases G.attempt d r p with
    | idle p' => exact ih
    | fired found p' => rfl
    | failed e p' => rfl

lemma pass_append_of_fired (rules' : List Rule) (h : G.pass d rules p = .fired r found q) :
    G.pass d (rules ++ rules') p = .fired r found q := by
  induction rules generalizing p with
  | nil => cases h
  | cons r' rules ih =>
    rw [List.cons_append]
    unfold pass at h ⊢
    cases hattempt : G.attempt d r' p with
    | idle p' =>
      rw [hattempt] at h
      exact ih h
    | fired found' p' =>
      rw [hattempt] at h
      exact h
    | failed e p' =>
      rw [hattempt] at h
      cases h

lemma pass_append_of_settled (rules' : List Rule) (h : G.pass d rules p = .ended .settled q) :
    G.pass d (rules ++ rules') p = G.pass d rules' q := by
  induction rules generalizing p with
  | nil =>
    cases h
    rfl
  | cons r' rules ih =>
    rw [List.cons_append]
    unfold pass at h
    rw [pass]
    cases hattempt : G.attempt d r' p with
    | idle p' =>
      rw [hattempt] at h
      exact ih h
    | fired found' p' =>
      rw [hattempt] at h
      cases h
    | failed e p' =>
      rw [hattempt] at h
      cases h

/-- What a grammar leads to, it leads to as well if it has further rules behind the others. -/
lemma Leads.append {rules' : List Rule} (hrules : G.rules = rules ++ rules')
    (h : ({ G with rules } : Grammar).Leads d p sites q) : G.Leads d p sites q := by
  induction h with
  | start => exact Leads.start
  | @fired sites q q' r found _ hpass ih =>
    change ({ G with rules } : Grammar).pass d rules q.beginPass = _ at hpass
    rw [pass_with] at hpass
    refine ih.fired ?_
    rw [hrules]
    exact pass_append_of_fired rules' hpass

end Grammar

end TripleGrammar
