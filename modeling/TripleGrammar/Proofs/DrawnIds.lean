import TripleGrammar.Proofs.CopiedRuns
import TripleGrammar.Proofs.Failures

/-!
# Ids that a derivation draws

If a supply starts beyond the ids of the host and does not start over, it stays beyond them. Every
id that it gives out on the way is given to one node, so that the new nodes of the host are numbered
in a row, and no firing ever draws an id that is in use. All that can go wrong is pruning in the
end.
-/

namespace TripleGrammar

namespace IdSupply

variable {ids : IdSupply} {n : Nat}

lemma map_toNat_draws (h : ids.next.raw.toNat + n ≤ 2 ^ 64) :
    (ids.draws n).map (·.raw.toNat) = List.range' ids.next.raw.toNat n := by
  rw [draws_eq, List.map_map, List.range'_eq_map_range]
  apply List.map_congr_left
  intro i hi
  have hlt := List.mem_range.mp hi
  simp only [Function.comp_apply, toNat_next_skip]
  rw [Nat.mod_eq_of_lt (by omega)]

end IdSupply

/-- The host has been extended by one node for each id that the supply has given out since it was
`ids`, in the order in which it gave them out, and the supply is beyond all nodes. -/
structure Numbered (host : Graph) (ids : IdSupply) (g : Graph) (s : IdSupply) : Prop where
  wellFormed : g.WellFormed
  beyond : s.Beyond g
  le : ids.next.raw.toNat ≤ s.next.raw.toNat
  nodes : ∃ new, g.nodes = host.nodes ++ new ∧ new.map (·.id.raw.toNat) =
    List.range' ids.next.raw.toNat (s.next.raw.toNat - ids.next.raw.toNat)

namespace Numbered

variable {host g : Graph} {ids s : IdSupply} {nodes : List Node} {edges : List Edge}

lemma start (hhost : host.WellFormed) (hbeyond : ids.Beyond host) : Numbered host ids host ids :=
  ⟨hhost, hbeyond, le_rfl, [], (List.append_nil _).symm, by rw [Nat.sub_self]; rfl⟩

lemma extend (h : Numbered host ids g s) (hwf : (g.extend nodes edges).WellFormed)
    (hroom : s.next.raw.toNat + nodes.length < 2 ^ 64)
    (hids : nodes.map (·.id) = s.draws nodes.length) :
    Numbered host ids (g.extend nodes edges) (s.skip nodes.length) := by
  obtain ⟨new, hnew, hrow⟩ := h.nodes
  have hle := h.le
  have hnext : (s.skip nodes.length).next.raw.toNat = s.next.raw.toNat + nodes.length := by
    rw [IdSupply.toNat_next_skip, Nat.mod_eq_of_lt hroom]
  have hrow' : nodes.map (·.id.raw.toNat) = List.range' s.next.raw.toNat nodes.length := by
    rw [← IdSupply.map_toNat_draws hroom.le, ← hids, List.map_map]
    rfl
  refine ⟨hwf, IdSupply.RoomBeyond.extend ⟨h.beyond, hroom⟩ hids, by omega, new ++ nodes, ?_, ?_⟩
  · rw [Graph.nodes_extend, hnew, List.append_assoc]
  · rw [List.map_append, hrow, hrow', hnext, Nat.sub_add_comm hle,
      ← List.range'_append_1, Nat.add_sub_cancel' hle]

end Numbered

namespace Grammar

variable {G : Grammar} {d reads : Domain} {p q : Progress} {r : Rule} {rules tried : List Rule}
  {host : Graph} {ids : IdSupply} {sites : List Site} {n : Nat}

/-- None of the first `n` passes draws so many ids that the supply starts over. -/
def SupplyLastsUpTo (G : Grammar) (d : Domain) (n : Nat) (p : Progress) : Prop :=
  ∀ sites q, G.Leads d p sites q → sites.length < n →
    q.ids.next.raw ≤ (G.pass d G.rules q.beginPass).progress.ids.next.raw

lemma SupplyLasts.upTo (h : G.SupplyLasts d p) (n : Nat) : G.SupplyLastsUpTo d n p :=
  fun sites q hq _ => h sites q hq

section

variable (hG : ∀ k, (G.strategy k).Sound)
include hG

/-! ### Attempts -/

/-- A rule that is tried numbers the nodes that it adds, and does not fail. -/
lemma numbered_attempt (hrule : r.graph.WellFormed) (h : Numbered host ids p.host p.ids)
    (hroom : p.ids.next.raw ≤ (G.attempt d r p).progress.ids.next.raw) :
    Numbered host ids (G.attempt d r p).progress.host (G.attempt d r p).progress.ids ∧
      ∀ e q, G.attempt d r p ≠ .failed e q := by
  by_cases hidle : r.hasCreation = false ∨ (G.nextMatch d r p).isEmpty = true
  · obtain ⟨q, hq, hhost, hids, -⟩ := exists_attempt_eq_idle hidle
    rw [hq]
    refine ⟨?_, fun e q' hfailed => by cases hfailed⟩
    change Numbered host ids q.host q.ids
    rwa [hhost, hids]
  obtain ⟨hcreation, hfound⟩ := not_or.mp hidle
  rw [Bool.not_eq_false] at hcreation
  rw [Bool.not_eq_true] at hfound
  have hfits := (fits_nextMatch hG hrule h.wellFormed hfound).1
  rw [ids_progress_attempt hcreation hfound] at hroom
  obtain ⟨f, g₁, hfire, henough, -⟩ :=
    Rule.exists_fire_eq_ok hrule h.wellFormed hfits hfound h.beyond hroom
  obtain ⟨nodes, edges, bound, -, rfl, -, hids, hadds, -⟩ :=
    Rule.of_fire_ok hrule h.wellFormed hfits hfire
  rw [hadds.instances.length_eq] at hfire henough
  have hnumbered := h.extend (hadds.wellFormed h.wellFormed) henough hids
  obtain ⟨q, hq, hqhost, hqids, -⟩ := exists_attempt_of_fire_ok hcreation hfound hfire
  rw [← hqhost, ← hqids] at hnumbered
  rw [hq]
  cases f.isEmpty with
  | true => exact ⟨hnumbered, fun e q' hfailed => by cases hfailed⟩
  | false => exact ⟨hnumbered, fun e q' hfailed => by cases hfailed⟩

/-! ### Passes -/

/-- Up to some rule of a pass no id has been drawn, or all those that the pass draws. -/
lemma ids_pass_of_prefix (hrules : ∀ r ∈ rules, r.graph.WellFormed) (hp : p.host.WellFormed)
    (htried : tried <+: rules) : (G.pass d tried p).progress.ids = p.ids ∨
      (G.pass d tried p).progress.ids = (G.pass d rules p).progress.ids := by
  induction tried generalizing rules p with
  | nil => exact Or.inl rfl
  | cons r tried ih =>
    obtain ⟨rest, rfl⟩ := htried
    rw [List.cons_append] at hrules ⊢
    obtain ⟨hrule, hrest⟩ := List.forall_mem_cons.mp hrules
    unfold pass
    cases hattempt : G.attempt d r p with
    | idle p' =>
      obtain ⟨hhost, hids⟩ := unchanged_of_attempt_idle hG hrule hp hattempt
      rw [← hids]
      exact ih hrest (hhost ▸ hp) (List.prefix_append tried rest)
    | fired found p' => exact Or.inr rfl
    | failed e p' => exact Or.inr rfl

lemma numbered_pass (hrules : ∀ r ∈ rules, r.graph.WellFormed)
    (h : Numbered host ids p.host p.ids)
    (hroom : p.ids.next.raw ≤ (G.pass d rules p).progress.ids.next.raw) :
    Numbered host ids (G.pass d rules p).progress.host (G.pass d rules p).progress.ids ∧
      ∀ e q, G.pass d rules p ≠ .ended (.failed e) q := by
  induction rules generalizing p with
  | nil => exact ⟨h, fun e q hfailed => by cases hfailed⟩
  | cons r rules ih =>
    obtain ⟨hrule, hrest⟩ := List.forall_mem_cons.mp hrules
    have hattempted := numbered_attempt hG (d := d) hrule h
    unfold pass at hroom ⊢
    cases hattempt : G.attempt d r p with
    | idle p' =>
      obtain ⟨-, hids⟩ := unchanged_of_attempt_idle hG hrule h.wellFormed hattempt
      rw [hattempt] at hroom hattempted
      obtain ⟨hnumbered, -⟩ := hattempted (UInt64.le_of_eq (congrArg (·.next.raw) hids.symm))
      exact ih hrest hnumbered (hids ▸ hroom)
    | fired found p' =>
      rw [hattempt] at hroom hattempted
      exact ⟨(hattempted hroom).1, fun e q hfailed => by cases hfailed⟩
    | failed e p' =>
      rw [hattempt] at hroom hattempted
      exact absurd rfl ((hattempted hroom).2 e p')

/-! ### Runs -/

lemma numbered_of_leads (hrules : ∀ r ∈ G.rules, r.graph.WellFormed) (hhost : host.WellFormed)
    (hbeyond : ids.Beyond host) (hlast : G.SupplyLastsUpTo d n { host, ids })
    (hq : G.Leads d { host, ids } sites q) (hn : sites.length ≤ n) :
    Numbered host ids q.host q.ids := by
  induction hq with
  | start => exact Numbered.start hhost hbeyond
  | @fired sites q q' r found hbefore hpass ih =>
    rw [List.length_append, List.length_singleton] at hn
    have hroom := hlast sites q hbefore hn
    have hnumbered := (numbered_pass hG hrules (p := q.beginPass) (ih (by omega)) hroom).1
    rw [hpass] at hnumbered
    exact hnumbered

lemma numbered_of_run (hrules : ∀ r ∈ G.rules, r.graph.WellFormed) (hhost : host.WellFormed)
    (hbeyond : ids.Beyond host) (hlast : G.SupplyLastsUpTo d n { host, ids }) {fuel : Nat}
    {ending : Ending} (hfuel : fuel ≤ n) (h : G.run d fuel { host, ids } = some (ending, q)) :
    Numbered host ids q.host q.ids ∧ ∀ e, ending ≠ .failed e := by
  obtain ⟨sites, q', hq', hpass, hlt⟩ := exists_leads_lt_of_run Leads.start h
  rw [List.length_nil, Nat.zero_add] at hlt
  have hn : sites.length < n := by omega
  have hnumbered := numbered_of_leads hG hrules hhost hbeyond hlast hq' hn.le
  obtain ⟨hnumbered, hok⟩ := numbered_pass hG hrules (p := q'.beginPass) hnumbered
    (hlast sites q' hq' hn)
  rw [hpass] at hnumbered hok
  exact ⟨hnumbered, fun e he => hok e q (he ▸ rfl)⟩

end

lemma prune_of_finish_error {writes : Domain} {e : DerivationError}
    (h : (G.finish reads writes q).result = .error e) :
    G.policy.prune = true ∧ q.host.prune writes = .error e := by
  unfold finish at h
  split at h
  next e' houtput =>
    cases h
    refine ⟨?_, prune_of_output_error houtput⟩
    by_contra hpolicy
    unfold output at houtput
    rw [if_neg hpolicy] at houtput
    cases houtput
  · cases h

/-- Unless the supply starts over, a derivation with a supply beyond the host numbers the nodes that
it adds in a row and leaves the supply beyond all nodes. This holds at any point of the first `n`
passes, whether or not these are all, and at the end of a derivation that takes no more. No firing
fails, so the only error there is comes from pruning the host in the end. -/
theorem drawn_ids_consecutive (hG : ∀ k, (G.strategy k).Sound)
    (hrules : ∀ r ∈ G.rules, r.graph.WellFormed) (hhost : host.WellFormed)
    (hbeyond : ids.Beyond host) (hlast : G.SupplyLastsUpTo reads n { host, ids }) :
    (∀ sites q tried, G.Leads reads { host, ids } sites q → sites.length < n → tried <+: G.rules →
      let p := (G.pass reads tried q.beginPass).progress
      Numbered host ids p.host p.ids) ∧
    ∀ writes fuel o, fuel ≤ n → G.derive reads writes fuel host ids = some o →
      Numbered host ids o.host o.ids ∧
      ∀ e, o.result = .error e → G.policy.prune = true ∧ o.host.prune writes = .error e ∧
        ∃ c s t, e = .defaultArity c s t := by
  refine ⟨fun sites q tried hq hn htried => ?_, fun writes fuel o hfuel ho => ?_⟩
  · have hnumbered := numbered_of_leads hG hrules hhost hbeyond hlast hq hn.le
    have hsome : ∀ r ∈ tried, r.graph.WellFormed := fun r hr => hrules r (htried.subset hr)
    refine (numbered_pass hG hsome (p := q.beginPass) hnumbered ?_).1
    rcases ids_pass_of_prefix hG hrules (p := q.beginPass) hnumbered.wellFormed htried with
      hids | hids
    · rw [hids]
      exact UInt64.le_refl _
    · rw [hids]
      exact hlast sites q hq hn
  · unfold derive at ho
    split at ho
    · cases ho
    next e q hrun =>
      exact absurd rfl ((numbered_of_run hG hrules hhost hbeyond hlast hfuel hrun).2 e)
    next q hrun =>
      cases ho
      obtain ⟨hnumbered, -⟩ := numbered_of_run hG hrules hhost hbeyond hlast hfuel hrun
      rw [host_finish, ids_finish]
      refine ⟨hnumbered, fun e he => ?_⟩
      obtain ⟨hpolicy, hprune⟩ := prune_of_finish_error he
      exact ⟨hpolicy, hprune, Graph.defaultArity_of_prune_error hnumbered.wellFormed hprune⟩

/-- Two queues are given a twin each, with the ids from seven on. A default correspondence without
ends then keeps the host from being pruned. -/
theorem drawn_ids_consecutive_queues :
    let queue : Node := { id := ⟨0⟩, kind := "Queue", domain := .source, action := some .create }
    let twin : Node := { id := ⟨1⟩, kind := "CfnQueue", domain := .target, action := some .create }
    let link : Node :=
      { id := ⟨2⟩, kind := "QueueAxiom", domain := .correspondence, action := some .create }
    let g := (Graph.assemble [queue, twin, link]
      [{ tail := ⟨2⟩, head := ⟨0⟩, action := some .create },
       { tail := ⟨2⟩, head := ⟨1⟩, action := some .create }]).after ∅
    let r : Rule := { name := "Axiom", graph := g, tagged := by decide +kernel }
    let G : Grammar := { rules := [r] }
    let host := (Graph.assemble
      [{ id := ⟨5⟩, kind := "Queue", domain := .source },
       { id := ⟨3⟩, kind := "Queue", domain := .source },
       { id := ⟨6⟩, kind := "Pair", domain := .correspondence, isDefault := true }] []).after ∅
    let ids : IdSupply := { next := ⟨7⟩ }
    (∀ k, (G.strategy k).Sound) ∧ (∀ r ∈ G.rules, r.graph.WellFormed) ∧ host.WellFormed ∧
      ids.Beyond host ∧ G.SupplyLastsUpTo .source 3 { host, ids } ∧
      ∃ o, G.derive .source .target 3 host ids = some o ∧ o.ids.next = ⟨11⟩ ∧
        (∃ new, o.host.nodes = host.nodes ++ new ∧
          new.map (·.id.raw.toNat) = [7, 8, 9, 10]) ∧
        ∃ c s t, o.result = .error (.defaultArity c s t) := by
  intro queue twin link g r G host ids
  have hG : ∀ k, (G.strategy k).Sound := fun _ => Strategy.backtracking_sound
  have hg : g.WellFormed := Graph.assemble_keeps_wellFormed _ _ ∅ (Graph.wellFormed_bare none)
  have hrules : ∀ r ∈ G.rules, r.graph.WellFormed := List.forall_mem_singleton.mpr hg
  have hhost : host.WellFormed :=
    Graph.assemble_keeps_wellFormed _ _ ∅ (Graph.wellFormed_bare none)
  have hbeyond : ids.Beyond host := by decide +kernel
  have hlast : G.SupplyLastsUpTo .source 3 { host, ids } :=
    (supplyLasts_of_lastsFor 3 (by decide +kernel)).upTo 3
  obtain ⟨-, hderive⟩ := drawn_ids_consecutive hG hrules hhost hbeyond hlast
  have heleven : (G.derive .source .target 3 host ids).map
      (fun o => (o.ids.next, o.result.toOption.isSome)) = some (⟨11⟩, false) := by
    decide +kernel
  obtain ⟨o, ho, heq⟩ := Option.map_eq_some_iff.mp heleven
  obtain ⟨hids, hfails⟩ := Prod.mk.inj heq
  obtain ⟨hnumbered, herror⟩ := hderive .target 3 o le_rfl ho
  obtain ⟨new, hnew, hrow⟩ := hnumbered.nodes
  rw [hids] at hrow
  refine ⟨hG, hrules, hhost, hbeyond, hlast, o, ho, hids, ⟨new, hnew, hrow⟩, ?_⟩
  cases hresult : o.result with
  | ok t =>
    rw [hresult] at hfails
    cases hfails
  | error e =>
    obtain ⟨-, -, c, s, t, rfl⟩ := herror e hresult
    exact ⟨c, s, t, rfl⟩

end Grammar

end TripleGrammar
