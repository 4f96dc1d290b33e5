import TripleGrammar.Proofs.FixedPoints
import TripleGrammar.Proofs.SettledRuns
import TripleGrammar.Proofs.Termination

/-!
# What a derivation counts

How much a firing adds depends on the rule alone, not on the match. A derivation counts its passes
and the firings of each name, records an event for each firing, and adds to the host and draws from
the supply on the way. All of this agrees with the sites at which its rules have fired.
-/

namespace TripleGrammar

variable {r : Rule} {d : Domain} {host : Graph} {found : Match} {ids : IdSupply}

/-! ### How much a firing adds -/

namespace Rule

/-- How much a firing of the rule adds. -/
def growth (r : Rule) (d : Domain) : Firing :=
  { nodes := (r.newTemplates d).length, edges := (r.newEdges d).length }

lemma isEmpty_growth_iff : (r.growth d).isEmpty = true ↔ r.AddsNothing d := by
  simp [growth, Firing.isEmpty, AddsNothing]

lemma growth_of_fire_ok (hrule : r.graph.WellFormed) (hhost : host.WellFormed)
    (hfits : host.Fits r.graph d found) {f : Firing} {host' : Graph} {ids' : IdSupply}
    (h : r.fire found d host ids = (.ok f, host', ids')) :
    f = r.growth d ∧ host'.nodes.length = host.nodes.length + f.nodes ∧
      host'.edges.length = host.edges.length + f.edges ∧ ids' = ids.skip f.nodes := by
  obtain ⟨nodes, edges, bound, rfl, rfl, hids, -, hadds, -⟩ := of_fire_ok hrule hhost hfits h
  refine ⟨?_, ?_, ?_, hids⟩
  · unfold growth
    rw [hadds.instances.length_eq, hadds.placed.length_eq]
  · rw [Graph.nodes_extend, List.length_append]
  · rw [hadds.edges_extend, List.length_append]

end Rule

/-- The event for the firing at the site in the given pass. -/
def Site.event (d : Domain) (s : Site) (pass : Nat) : Event :=
  .ruleFired s.rule.name pass (s.rule.growth d).nodes (s.rule.growth d).edges

namespace Grammar

variable {G : Grammar} {reads writes : Domain} {p q q' : Progress} {sites : List Site} {o : Outcome}
  {t : Derivation}

/-- What has been counted and recorded so far agrees with the sites of the firings, of which the
first was in the first pass, the second in the second and so on. -/
structure Counts (d : Domain) (host : Graph) (ids : IdSupply) (sites : List Site) (q : Progress) :
    Prop where
  firings : q.firings.values.sum = sites.length
  records : q.events.toList.filter (·.level == "DEBUG") =
    (sites.zipIdx 1).map fun x => x.1.event d x.2
  running : ∀ e ∈ q.events.toList, e.level ≠ "INFO"
  nodes : q.host.nodes.length =
    host.nodes.length + (sites.map fun s => (s.rule.growth d).nodes).sum
  edges : q.host.edges.length =
    host.edges.length + (sites.map fun s => (s.rule.growth d).edges).sum
  ids : q.ids = ids.skip (sites.map fun s => (s.rule.growth d).nodes).sum

/-! ### Events of an attempt -/

lemma level_of_mem_events {s : MatchSearch} {name : Option String} {e : Event}
    (he : e ∈ s.events name) : e.level = "TRACE" := by
  obtain ⟨image, -, rfl⟩ := List.mem_map.mp he
  rfl

/-- An attempt that comes to nothing records embeddings that are passed over. -/
lemma events_of_attempt_idle (h : G.attempt d r p = .idle q) :
    ∃ skipped, q.events.toList = p.events.toList ++ skipped ∧ ∀ e ∈ skipped, e.level = "TRACE" := by
  have hsearched : ∃ skipped, (p.searched r (p.host.searchMatch r.graph d
      (G.strategy p.searches))).events.toList = p.events.toList ++ skipped ∧
        ∀ e ∈ skipped, e.level = "TRACE" :=
    ⟨_, Array.toList_append, fun e he => level_of_mem_events he⟩
  unfold attempt at h
  split at h
  · cases h
    exact ⟨[], (List.append_nil _).symm, fun e he => absurd he List.not_mem_nil⟩
  · dsimp only at h
    split at h
    · cases h
      exact hsearched
    · split at h
      · cases h
      · split at h
        · cases h
          exact hsearched
        · cases h

lemma events_of_attempt_fired (h : G.attempt d r p = .fired found q) :
    ∃ skipped f, q.events.toList =
        p.events.toList ++ skipped ++ [.ruleFired r.name p.passes f.nodes f.edges] ∧
      (∀ e ∈ skipped, e.level = "TRACE") ∧ r.fire found d p.host p.ids = (.ok f, q.host, q.ids) := by
  obtain ⟨rfl, f, hf, htries⟩ := tries_of_attempt_fired h
  have hattempt := attempt_eq htries.hasCreation htries.found
  rw [htries.fire] at hattempt
  simp only [hf, Bool.false_eq_true, if_false] at hattempt
  have hq := (Attempt.fired.inj (h.symm.trans hattempt)).2
  refine ⟨(p.host.searchMatch r.graph d (G.strategy p.searches)).events r.graph.name, f, ?_,
    fun e he => level_of_mem_events he, htries.fire⟩
  rw [hq]
  simp only [Progress.fired, Progress.searched, Array.toList_push, Array.toList_append]

/-! ### Counting along a run -/

lemma filter_debug {skipped : List Event} (h : ∀ e ∈ skipped, e.level = "TRACE") :
    skipped.filter (·.level == "DEBUG") = [] := by
  rw [List.filter_eq_nil_iff]
  intro e he
  rw [h e he]
  decide

lemma Counts.beginPass (h : Counts d host ids sites q) : Counts d host ids sites q.beginPass :=
  ⟨h.firings, h.records, h.running, h.nodes, h.edges, h.ids⟩

section

variable (hG : ∀ k, (G.strategy k).Sound)
include hG

lemma Counts.of_idle (hrule : r.graph.WellFormed) (hp : p.host.WellFormed)
    (h : Counts d host ids sites p) (hidle : G.attempt d r p = .idle q) :
    Counts d host ids sites q := by
  obtain ⟨hhost, hids⟩ := unchanged_of_attempt_idle hG hrule hp hidle
  obtain ⟨skipped, hevents, htrace⟩ := events_of_attempt_idle hidle
  refine ⟨?_, ?_, ?_, hhost ▸ h.nodes, hhost ▸ h.edges, hids.trans h.ids⟩
  · rw [firings_of_attempt_idle hidle, h.firings]
  · rw [hevents, List.filter_append, filter_debug htrace, List.append_nil, h.records]
  · intro e he
    rw [hevents] at he
    rcases List.mem_append.mp he with he | he
    · exact h.running e he
    · rw [htrace e he]
      decide

lemma Counts.of_fired (hrule : r.graph.WellFormed) (hp : p.host.WellFormed)
    (h : Counts d host ids sites p) (hpasses : p.passes = sites.length + 1)
    (hfired : G.attempt d r p = .fired found q) :
    Counts d host ids (sites ++ [⟨p.host, r, found⟩]) q := by
  obtain ⟨skipped, f, hevents, htrace, hfire⟩ := events_of_attempt_fired hfired
  obtain ⟨rfl, f', -, htries⟩ := tries_of_attempt_fired hfired
  have hfits := (fits_nextMatch hG hrule hp htries.found).1
  obtain ⟨rfl, hnodes, hedges, hids⟩ := Rule.growth_of_fire_ok hrule hp hfits hfire
  refine ⟨?_, ?_, ?_, ?_, ?_, ?_⟩
  · rw [firings_of_attempt_fired hfired, SortedMap.sum_values_insert_succ, h.firings,
      List.length_append, List.length_singleton]
  · rw [hevents, List.filter_append, List.filter_append, filter_debug htrace, List.append_nil,
      h.records, List.zipIdx_append, List.map_append, hpasses, Nat.add_comm 1]
    rfl
  · intro e he
    rw [hevents] at he
    simp only [List.mem_append, List.mem_singleton] at he
    rcases he with (he | he) | rfl
    · exact h.running e he
    · rw [htrace e he]
      decide
    · change "DEBUG" ≠ "INFO"
      decide
  · rw [hnodes, h.nodes, List.map_append, List.sum_append, List.map_singleton,
      List.sum_singleton, Nat.add_assoc]
  · rw [hedges, h.edges, List.map_append, List.sum_append, List.map_singleton,
      List.sum_singleton, Nat.add_assoc]
  · rw [hids, h.ids, IdSupply.skip_skip, List.map_append, List.sum_append, List.map_singleton,
      List.sum_singleton]

lemma Counts.kept (hrules : ∀ r ∈ G.rules, r.graph.WellFormed) {g : Graph} (hg : g.WellFormed)
    {n : Nat} : ∀ r ∈ G.rules, ∀ p p', (p.host = g ∧ p.passes = n ∧ Counts d host ids sites p) →
      G.attempt d r p = .idle p' → p'.host = g ∧ p'.passes = n ∧ Counts d host ids sites p' := by
  rintro r hr p p' ⟨rfl, hp, hcounts⟩ hattempt
  exact ⟨(unchanged_of_attempt_idle hG (hrules r hr) hg hattempt).1,
    (passes_of_attempt_idle hattempt).trans hp, hcounts.of_idle hG (hrules r hr) hg hattempt⟩

lemma Leads.counts (hrules : ∀ r ∈ G.rules, r.graph.WellFormed) (hhost : host.WellFormed)
    (h : G.Leads d { host, ids } sites q) : Counts d host ids sites q := by
  induction h with
  | start => exact ⟨rfl, rfl, fun e he => absurd he List.not_mem_nil, rfl, rfl, rfl⟩
  | @fired sites q q' r found hbefore hpass ih =>
    have hq : q.host.WellFormed := hbefore.keeps (G.wellFormed_firings d) hhost
    have hpasses : q.beginPass.passes = sites.length + 1 := by
      change q.passes + 1 = sites.length + 1
      rw [hbefore.passes, Nat.zero_add]
    have hbegin : q.beginPass.host = q.host ∧ q.beginPass.passes = sites.length + 1 ∧
        Counts d host ids sites q.beginPass := ⟨rfl, hpasses, ih.beginPass⟩
    obtain ⟨hr, p, ⟨hsame, hp, hcounts⟩, hattempt⟩ :=
      exists_attempt_of_pass_fired (Counts.kept hG hrules hq) hbegin hpass
    have hwf : p.host.WellFormed := hsame ▸ hq
    rw [← hsame]
    exact hcounts.of_fired hG (hrules r hr) hwf hp hattempt

lemma Settles.counts (hrules : ∀ r ∈ G.rules, r.graph.WellFormed) (hhost : host.WellFormed)
    (h : G.Settles d { host, ids } sites q) : Counts d host ids sites q := by
  obtain ⟨q₀, hleads, hpass⟩ := h
  have hq₀ : q₀.host.WellFormed := hleads.keeps (G.wellFormed_firings d) hhost
  have hbegin : q₀.beginPass.host = q₀.host ∧ q₀.beginPass.passes = q₀.passes + 1 ∧
      Counts d host ids sites q₀.beginPass :=
    ⟨rfl, rfl, (hleads.counts hG hrules hhost).beginPass⟩
  exact (of_pass_settled (Counts.kept hG hrules hq₀) hbegin hpass).2.2

/-- The rules that fire on the way are rules of the grammar that have something to add. -/
lemma Leads.grows (hrules : ∀ r ∈ G.rules, r.graph.WellFormed) (hhost : host.WellFormed)
    (h : G.Leads d { host, ids } sites q) :
    ∀ s ∈ sites, s.rule ∈ G.rules ∧ (s.rule.growth d).isEmpty = false := by
  induction h with
  | start => exact fun s hs => absurd hs List.not_mem_nil
  | @fired sites q q' r found hbefore hpass ih =>
    have hq : q.host.WellFormed := hbefore.keeps (G.wellFormed_firings d) hhost
    obtain ⟨hr, -, -, hadds, -⟩ := exists_adds_of_pass hG hrules hq hpass
    rw [← Rule.isEmpty_growth_iff, Bool.not_eq_true] at hadds
    exact List.forall_mem_append.mpr ⟨ih, List.forall_mem_singleton.mpr ⟨hr, hadds⟩⟩

end

/-! ### What a derivation that succeeds returns -/

lemma exists_settles_of_derive {fuel : Nat} (h : G.derive reads writes fuel host ids = some o)
    (ht : o.result = .ok t) :
    ∃ sites q, G.Settles reads { host, ids } sites q ∧ o = G.finish reads writes q := by
  obtain ⟨q, hrun, ho⟩ := exists_settled_of_derive h ht
  obtain ⟨sites, q₀, hleads, hpass⟩ := exists_leads_of_run Leads.start hrun
  exact ⟨sites, q, ⟨q₀, hleads, hpass⟩, ho⟩

lemma level_of_output {graph : Graph} {events : List Event}
    (h : G.output host writes = .ok (graph, events)) : ∀ e ∈ events, e.level = "TRACE" := by
  unfold output at h
  split at h
  · cases hprune : host.prune writes with
    | error e =>
      rw [hprune] at h
      cases h
    | ok pruned =>
      rw [hprune] at h
      cases h
      exact List.forall_mem_singleton.mpr rfl
  · cases h
    exact fun e he => absurd he List.not_mem_nil

/-- Pruning may record an event before the last one, which says what is returned. -/
lemma events_of_finish (h : (G.finish reads writes q).result = .ok t) :
    t.passes = q.passes ∧ t.firings = q.firings ∧
      ∃ pruned, (∀ e ∈ pruned, e.level = "TRACE") ∧
        (G.finish reads writes q).events.toList = q.events.toList ++ pruned ++
          [.settled G.policy.version reads writes t.passes t.totalFirings q.host.nodes.length
            t.graph.nodes.length t.graph.edges.length] := by
  unfold finish at h ⊢
  split at h
  · cases h
  next graph events houtput =>
    cases h
    exact ⟨rfl, rfl, events, level_of_output houtput, by simp only [Array.toList_append]⟩

/-- Wherever a rule fires, it adds as much as it creates outside what it reads. So all that a
derivation counts follows from the sites of its firings: it makes one pass more than there are
sites, it returns how often the rules of each name have fired, it records one event for each site
and one for the result, and the host and the supply grow by the sum of what the rules add. -/
theorem derivations_count_firings (hG : ∀ k, (G.strategy k).Sound)
    (hrules : ∀ r ∈ G.rules, r.graph.WellFormed) (hhost : host.WellFormed) :
    (∀ (r : Rule) (S : Strategy) (d : Domain) (g g' : Graph) (s s' : IdSupply) (f : Firing),
      r.graph.WellFormed → S.Sound → g.WellFormed →
      (g.searchMatch r.graph d S).found.isEmpty = false →
      r.fire (g.searchMatch r.graph d S).found d g s = (.ok f, g', s') →
      f = r.growth d ∧ g'.nodes.length = g.nodes.length + f.nodes ∧
        g'.edges.length = g.edges.length + f.edges ∧ s' = s.skip f.nodes) ∧
    (∀ sites q, G.Leads reads { host, ids } sites q → Counts reads host ids sites q) ∧
    ∀ writes fuel o t, G.derive reads writes fuel host ids = some o → o.result = .ok t →
      ∃ sites q, G.Settles reads { host, ids } sites q ∧ o = G.finish reads writes q ∧
        (∀ s ∈ sites, s.rule ∈ G.rules ∧ (s.rule.growth reads).isEmpty = false) ∧
        t.totalFirings = sites.length ∧ t.passes = t.totalFirings + 1 ∧
        (∀ name, t.firings.get? name = tally ((sites.map (·.rule.name)).count name)) ∧
        (∃ before, o.events.toList = before ++
            [.settled G.policy.version reads writes t.passes t.totalFirings o.host.nodes.length
              t.graph.nodes.length t.graph.edges.length] ∧
          before.filter (·.level == "DEBUG") =
            (sites.zipIdx 1).map (fun x => x.1.event reads x.2) ∧
          ∀ e ∈ before, e.level ≠ "INFO") ∧
        o.host.nodes.length =
          host.nodes.length + (sites.map fun s => (s.rule.growth reads).nodes).sum ∧
        o.host.edges.length =
          host.edges.length + (sites.map fun s => (s.rule.growth reads).edges).sum ∧
        o.ids = ids.skip (sites.map fun s => (s.rule.growth reads).nodes).sum := by
  refine ⟨fun r S d g g' s s' f hr hS hg hfound hfire => ?_,
    fun sites q hleads => hleads.counts hG hrules hhost, fun writes fuel o t ho ht => ?_⟩
  · exact Rule.growth_of_fire_ok hr hg (Graph.fits_of_searchMatch hS hg hr hfound).1 hfire
  · obtain ⟨sites, q, hsettles, rfl⟩ := exists_settles_of_derive ho ht
    obtain ⟨hpasses, hfirings, pruned, htrace, hevents⟩ := events_of_finish ht
    have hcounts := hsettles.counts hG hrules hhost
    have hgrows : ∀ s ∈ sites, s.rule ∈ G.rules ∧ (s.rule.growth reads).isEmpty = false := by
      obtain ⟨q₀, hleads, -⟩ := hsettles
      exact hleads.grows hG hrules hhost
    have htotal : t.totalFirings = sites.length := by
      unfold Derivation.totalFirings
      rw [← List.sum_eq_foldl_nat, hfirings, hcounts.firings]
    refine ⟨sites, q, hsettles, rfl, hgrows, htotal, ?_, fun name => ?_,
      ⟨q.events.toList ++ pruned, ?_, ?_, ?_⟩, ?_, ?_, ?_⟩
    · rw [hpasses, hsettles.passes, htotal, Nat.zero_add]
    · rw [hfirings, hsettles.firings rfl]
    · rw [host_finish]
      exact hevents
    · rw [List.filter_append, filter_debug htrace, List.append_nil, hcounts.records]
    · intro e he
      rcases List.mem_append.mp he with he | he
      · exact hcounts.running e he
      · rw [htrace e he]
        decide
    · rw [host_finish, hcounts.nodes]
    · rw [host_finish, hcounts.edges]
    · rw [ids_finish, hcounts.ids]

/-- There is a bucket for each of two files. The rule that comes first finds files in every pass,
but has nothing to add. -/
theorem derivations_count_firings_files :
    let file : Node := { id := ⟨0⟩, kind := "File", domain := .source, action := some .create }
    let bucket : Node := { id := ⟨1⟩, kind := "Bucket", domain := .target, action := some .create }
    let link : Node :=
      { id := ⟨2⟩, kind := "Stored", domain := .correspondence, action := some .create }
    let read := (Graph.assemble [file] []).after ∅
    let stored := (Graph.assemble [file, bucket, link]
      [{ tail := ⟨2⟩, head := ⟨0⟩, action := some .create },
       { tail := ⟨2⟩, head := ⟨1⟩, action := some .create }]).after ∅
    let r : Rule := { name := "Read", graph := read, tagged := by decide +kernel }
    let s : Rule := { name := "Stored", graph := stored, tagged := by decide +kernel }
    let G : Grammar := { rules := [r, s] }
    let host := (Graph.assemble
      [{ id := ⟨5⟩, kind := "File", domain := .source },
       { id := ⟨6⟩, kind := "File", domain := .source }] []).after ∅
    let ids : IdSupply := { next := ⟨7⟩ }
    (∀ k, (G.strategy k).Sound) ∧ (∀ r ∈ G.rules, r.graph.WellFormed) ∧ host.WellFormed ∧
      (host.searchMatch s.graph .source .backtracking).found.isEmpty = false ∧
      (∃ f g' s', s.fire (host.searchMatch s.graph .source .backtracking).found .source host ids =
          (.ok f, g', s') ∧ f = s.growth .source ∧ s' = ids.skip f.nodes) ∧
      ∃ (o : Outcome) (t : Derivation) (sites : List Site),
        G.derive .source .target 3 host ids = some o ∧ o.result = .ok t ∧
        t.passes = 3 ∧ t.totalFirings = 2 ∧ sites.length = 2 ∧
        (∀ name, t.firings.get? name = tally ((sites.map (·.rule.name)).count name)) ∧
        ∃ before, o.events.toList = before ++
            [.settled G.policy.version .source .target t.passes t.totalFirings
              o.host.nodes.length t.graph.nodes.length t.graph.edges.length] ∧
          before.filter (·.level == "DEBUG") =
            (sites.zipIdx 1).map (fun x => x.1.event .source x.2) := by
  intro file bucket link read stored r s G host ids
  have hG : ∀ k, (G.strategy k).Sound := fun _ => Strategy.backtracking_sound
  have hread : read.WellFormed :=
    Graph.assemble_keeps_wellFormed _ _ ∅ (Graph.wellFormed_bare none)
  have hstored : stored.WellFormed :=
    Graph.assemble_keeps_wellFormed _ _ ∅ (Graph.wellFormed_bare none)
  have hs : s.graph.WellFormed := by
    dsimp only [s]
    exact hstored
  have hrules : ∀ r ∈ G.rules, r.graph.WellFormed := by
    refine List.forall_mem_cons.mpr ⟨?_, List.forall_mem_singleton.mpr hs⟩
    dsimp only [r]
    exact hread
  have hhost : host.WellFormed :=
    Graph.assemble_keeps_wellFormed _ _ ∅ (Graph.wellFormed_bare none)
  obtain ⟨hfires, -, hderive⟩ := @derivations_count_firings host ids G .source hG hrules hhost
  have hfound : (host.searchMatch s.graph .source .backtracking).found.isEmpty = false := by
    decide +kernel
  have hfire : (s.fire (host.searchMatch s.graph .source .backtracking).found .source host
      ids).1.toOption.isSome = true := by
    decide +kernel
  have hthree : (G.derive .source .target 3 host ids).map
      (fun o => o.result.toOption.map (·.passes)) = some (some 3) := by
    decide +kernel
  obtain ⟨f, g', s', hf⟩ : ∃ f g' s', s.fire
      (host.searchMatch s.graph .source .backtracking).found .source host ids =
        (.ok f, g', s') := by
    rcases heq : s.fire (host.searchMatch s.graph .source .backtracking).found .source host ids
      with ⟨result, g', s'⟩
    rw [heq] at hfire
    cases result with
    | error e => cases hfire
    | ok f => exact ⟨f, g', s', rfl⟩
  obtain ⟨hgrowth, -, -, hskip⟩ := hfires s .backtracking .source host g' ids s' f hs
    Strategy.backtracking_sound hhost hfound hf
  obtain ⟨o, ho, hresult⟩ := Option.map_eq_some_iff.mp hthree
  obtain ⟨t, ht, hpasses⟩ := Option.map_eq_some_iff.mp hresult
  have hok := Outcome.result_eq_ok ht
  obtain ⟨sites, -, -, -, -, htotal, hcount, hfirings, ⟨before, hevents, hrecords, -⟩, -⟩ :=
    hderive .target 3 o t ho hok
  rw [hpasses] at hcount
  have htwo : t.totalFirings = 2 := by omega
  exact ⟨hG, hrules, hhost, hfound, ⟨f, g', s', hf, hgrowth, hskip⟩, o, t, sites, ho, hok, hpasses,
    htwo, htotal ▸ htwo, hfirings, before, hevents, hrecords⟩

end Grammar

end TripleGrammar
