import TripleGrammar.Proofs.FirstMatch
import TripleGrammar.Proofs.FixedPoints
import TripleGrammar.Proofs.Renamings
import TripleGrammar.Proofs.Termination

/-!
# The order in which embeddings are shown

A strategy may show the embeddings in an order of its own, and some of them more than once. Which
match is found depends on it, but not whether there is one, nor whether two graphs are isomorphic.
So a host on which no rule has anything to add is one for every order.
-/

namespace TripleGrammar

namespace Strategy

variable {S : Strategy}

/-- The strategy shows the assignments of the embeddings that heed compatibility, each at least once
and in any order, and nothing else. -/
def Exact (S : Strategy) : Prop :=
  ∀ host pattern compatible, host.rows = host.cols → pattern.rows = pattern.cols →
    ∀ m, m ∈ S.embeddings host pattern compatible ↔
      ∃ f, Embeds host pattern compatible f ∧ BitMatrix.ofPlacing f = m

lemma Exact.sound (hS : S.Exact) : S.Sound := by
  intro host pattern compatible hhost hpattern m hm
  obtain ⟨f, hf, rfl⟩ := (hS host pattern compatible hhost hpattern m).mp hm
  exact ⟨f, ⟨hf.injective, hf.edge, fun _ => rfl⟩, BitMatrix.ones_ofPlacing f⟩

lemma backtracking_exact : Strategy.backtracking.Exact := by
  intro host pattern compatible hhost hpattern m
  obtain ⟨fs, hfs, -, heq⟩ := Backtracking.exists_embeddings_eq hhost hpattern compatible
  rw [heq, List.mem_map]
  exact exists_congr fun f => and_congr_left fun _ => hfs f

lemma Exact.reversed (hS : S.Exact) : S.reversed.Exact :=
  fun host pattern compatible hhost hpattern m =>
    List.mem_reverse.trans (hS host pattern compatible hhost hpattern m)

/-- Exact strategies show the same assignments. -/
lemma Exact.mem_iff (hS : S.Exact) {host pattern : BitMatrix} {m : BitMatrix}
    (hhost : host.rows = host.cols) (hpattern : pattern.rows = pattern.cols)
    (compatible : Nat → Nat → Bool) : m ∈ S.embeddings host pattern compatible ↔
      m ∈ Strategy.backtracking.embeddings host pattern compatible :=
  (hS host pattern compatible hhost hpattern m).trans
    (backtracking_exact host pattern compatible hhost hpattern m).symm

end Strategy

/-! ### Matches and isomorphism -/

namespace Graph

variable {g h host rule : Graph} {d : Domain} {S : Strategy}

lemma mem_agreeing_iff (hS : S.Exact) (hhost : host.WellFormed) {pattern : Graph}
    (hpattern : pattern.WellFormed) (m : BitMatrix) :
    m ∈ (S.embeddings host.adjacency pattern.adjacency (host.labelsAgree pattern)).filter
        (host.agrees pattern) ↔ ∃ f, host.Suits pattern f ∧ BitMatrix.ofPlacing f = m := by
  obtain ⟨fs, hfs, -, heq⟩ := exists_candidates hhost hpattern
  rw [List.mem_filter, hS.mem_iff hhost.rows_eq_cols hpattern.rows_eq_cols, heq, List.mem_map]
  constructor
  · rintro ⟨⟨f, hf, hm⟩, -⟩
    exact ⟨f, (hfs f).mp hf, hm⟩
  · rintro ⟨f, hf, rfl⟩
    exact ⟨⟨f, (hfs f).mpr hf, rfl⟩, hf.agrees⟩

/-- The search ends at a candidate that does not repeat links, or there is none. -/
theorem findMatch_cases (hS : S.Exact) (hhost : host.WellFormed) (hrule : rule.WellFormed) :
    (host.findMatch rule d S = ∅ ∧ ∀ f, host.Suits (rule.context d) f → host.Repeats rule d f) ∨
      ∃ f, host.Suits (rule.context d) f ∧ ¬host.Repeats rule d f ∧
        host.findMatch rule d S = host.bindings (rule.context d) f := by
  have hpattern := (isPart_context hrule d).wellFormed
  have hms := mem_agreeing_iff hS hhost hpattern
  unfold findMatch searchMatch
  dsimp only
  rw [S.search_eq, value_visitEach_considerMatch]
  dsimp only
  -- all that matters of the assignments that are shown is which they are
  generalize (S.embeddings _ _ _).filter _ = ms at hms ⊢
  have hnew := List.head?_dropWhile_not
    (host.repeatsAt (rule.context d) (host.links d) rule.createdLinkKinds d) ms
  cases hrest : ms.dropWhile
      (host.repeatsAt (rule.context d) (host.links d) rule.createdLinkKinds d) with
  | nil =>
    refine Or.inl ⟨rfl, fun f hf => ?_⟩
    rw [← repeatsAt_ofPlacing_iff hhost hpattern]
    exact List.dropWhile_eq_nil_iff.mp hrest _ ((hms _).mpr ⟨f, hf, rfl⟩)
  | cons m rest =>
    have hmem : m ∈ ms := (List.dropWhile_sublist _).subset (hrest ▸ List.mem_cons_self)
    obtain ⟨f, hf, rfl⟩ := (hms m).mp hmem
    rw [hrest] at hnew
    refine Or.inr ⟨f, hf, fun h => ?_, matchOf_ofPlacing f⟩
    rw [← repeatsAt_ofPlacing_iff hhost hpattern] at h
    simp [h] at hnew

lemma isEmpty_findMatch_iff (hS : S.Exact) (hhost : host.WellFormed) (hrule : rule.WellFormed) :
    (host.findMatch rule d S).isEmpty = true ↔
      (∀ f, host.Suits (rule.context d) f → host.Repeats rule d f) ∨
        (rule.context d).nodes = [] := by
  have hpattern := (isPart_context hrule d).wellFormed
  rcases findMatch_cases hS hhost hrule with ⟨hempty, hall⟩ | ⟨f, hf, hnew, hfound⟩
  · rw [hempty]
    exact iff_of_true rfl (Or.inl hall)
  · rw [hfound, isEmpty_bindings_iff hpattern]
    exact (or_iff_right fun hall => hnew (hall f hf)).symm

theorem isIsomorphicTo_eq (hS : S.Exact) (hg : g.WellFormed) (hh : h.WellFormed) :
    g.isIsomorphicTo h S = g.isIsomorphicTo h := by
  have hany : (S.embeddings g.adjacency h.adjacency (g.flagsAgree h)).any (g.brings h) =
      (Strategy.backtracking.embeddings g.adjacency h.adjacency (g.flagsAgree h)).any
        (g.brings h) := by
    rw [Bool.eq_iff_iff, List.any_eq_true, List.any_eq_true]
    exact exists_congr fun m => and_congr_left fun _ =>
      hS.mem_iff hg.rows_eq_cols hh.rows_eq_cols _
  unfold isIsomorphicTo
  rw [Strategy.search_eq, Strategy.search_eq, value_visitEach_considerRenaming,
    value_visitEach_considerRenaming, hany]

end Graph

/-! ### Fixed points -/

namespace Rule

variable {r : Rule} {d : Domain} {host : Graph} {found : Match}

lemma fire_of_addsNothing (hrule : r.graph.WellFormed) (hhost : host.WellFormed)
    (hfits : host.Fits r.graph d found) (h : r.AddsNothing d) (ids : IdSupply) :
    r.fire found d host ids = (.ok ⟨0, 0⟩, host, ids) := by
  rcases fire_cases hrule hhost hfits ids with
    ⟨id, ids', -, hid⟩ | ⟨nodes, edges, bound, ids', hok, hadds, -⟩
  · rw [h.1] at hid
    cases hid
  · exact fire_eq_of_isEmpty hrule hhost hfits (hadds.isEmpty_iff.mpr h) hok ids

/-- Whether a rule that has a match rests there does not depend on the match. -/
lemma rests_iff (hrule : r.graph.WellFormed) (hhost : host.WellFormed) :
    r.Rests d host ↔ r.hasCreation = false ∨ (host.findMatch r.graph d).isEmpty = true ∨
      r.AddsNothing d := by
  unfold Rests
  refine or_congr_right ?_
  by_cases hfound : (host.findMatch r.graph d).isEmpty = true
  · exact iff_of_true (Or.inl hfound) (Or.inl hfound)
  have hfits := (Graph.fits_of_searchMatch Strategy.backtracking_sound hhost hrule
    (Bool.eq_false_iff.mpr hfound)).1
  refine or_congr_right ⟨fun h => ?_, fire_of_addsNothing hrule hhost hfits⟩
  obtain ⟨nodes, edges, bound, hf, -, -, -, hadds, -⟩ :=
    of_fire_ok hrule hhost hfits (h { next := ⟨0⟩ })
  rw [← hadds.isEmpty_iff, ← hf]
  rfl

end Rule

/-- Nothing has happened from the one to the other but searches. -/
structure Progress.Stays (p q : Progress) : Prop where
  host : q.host = p.host
  ids : q.ids = p.ids
  passes : q.passes = p.passes
  firings : q.firings = p.firings

namespace Progress.Stays

variable {p q q' : Progress}

lemma symm (h : p.Stays q) : q.Stays p :=
  ⟨h.host.symm, h.ids.symm, h.passes.symm, h.firings.symm⟩

lemma trans (h : p.Stays q) (h' : q.Stays q') : p.Stays q' :=
  ⟨h'.host.trans h.host, h'.ids.trans h.ids, h'.passes.trans h.passes, h'.firings.trans h.firings⟩

end Progress.Stays

namespace Grammar

variable {G : Grammar} {d : Domain} {p q : Progress} {r : Rule} {rules : List Rule} {host : Graph}
  {ids : IdSupply}

lemma isEmpty_nextMatch_iff (hG : ∀ k, (G.strategy k).Exact) (hrule : r.graph.WellFormed)
    (hp : p.host.WellFormed) :
    (G.nextMatch d r p).isEmpty = true ↔ (p.host.findMatch r.graph d).isEmpty = true :=
  (Graph.isEmpty_findMatch_iff (hG p.searches) hp hrule).trans
    (Graph.isEmpty_findMatch_iff Strategy.backtracking_exact hp hrule).symm

/-- A rule that is tried stays idle exactly if it rests on the host. -/
lemma attempt_cases (hG : ∀ k, (G.strategy k).Exact) (hrule : r.graph.WellFormed)
    (hp : p.host.WellFormed) :
    (r.Rests d p.host ∧ ∃ q, G.attempt d r p = .idle q ∧ p.Stays q) ∨
      (¬r.Rests d p.host ∧ ∀ q, G.attempt d r p ≠ .idle q) := by
  rw [Rule.rests_iff hrule hp, ← isEmpty_nextMatch_iff hG hrule hp]
  by_cases hidle : r.hasCreation = false ∨ (G.nextMatch d r p).isEmpty = true
  · obtain ⟨q, hq, hhost, hids, hpasses, hfirings⟩ := exists_attempt_eq_idle hidle
    exact Or.inl ⟨or_assoc.mp (Or.inl hidle), q, hq, ⟨hhost, hids, hpasses, hfirings⟩⟩
  obtain ⟨hcreation, hfound⟩ := not_or.mp hidle
  rw [Bool.not_eq_false] at hcreation
  rw [Bool.not_eq_true] at hfound
  have hfits := (fits_nextMatch (fun k => (hG k).sound) hrule hp hfound).1
  by_cases hnothing : r.AddsNothing d
  · have hfire := Rule.fire_of_addsNothing hrule hp hfits hnothing p.ids
    obtain ⟨q, hq, hhost, hids, hpasses, hfirings⟩ :=
      exists_attempt_of_fire_ok hcreation hfound hfire
    exact Or.inl ⟨Or.inr (Or.inr hnothing), q, hq, ⟨hhost, hids, hpasses, hfirings⟩⟩
  · refine Or.inr ⟨by simp [hcreation, hfound, hnothing], fun q hq => ?_⟩
    rcases Rule.fire_cases hrule hp hfits p.ids with
      ⟨id, ids, herror, -⟩ | ⟨nodes, edges, bound, ids, hok, hadds, -⟩
    · have hattempt := attempt_eq hcreation hfound
      rw [herror] at hattempt
      cases hattempt.symm.trans hq
    · obtain ⟨q', hattempt, -⟩ := exists_attempt_of_fire_ok hcreation hfound hok
      rw [if_neg (mt hadds.isEmpty_iff.mp hnothing)] at hattempt
      cases hattempt.symm.trans hq

lemma pass_settled_iff (hG : ∀ k, (G.strategy k).Exact)
    (hrules : ∀ r ∈ rules, r.graph.WellFormed) (hp : p.host.WellFormed) :
    (∃ q, G.pass d rules p = .ended .settled q ∧ p.Stays q) ↔ ∀ r ∈ rules, r.Rests d p.host := by
  induction rules generalizing p with
  | nil =>
    exact iff_of_true ⟨p, rfl, ⟨rfl, rfl, rfl, rfl⟩⟩ fun r hr => absurd hr List.not_mem_nil
  | cons r rules ih =>
    obtain ⟨hrule, hrest⟩ := List.forall_mem_cons.mp hrules
    rw [List.forall_mem_cons]
    unfold pass
    rcases attempt_cases hG hrule hp with ⟨hrests, p', hattempt, hstays⟩ | ⟨hrests, hattempt⟩
    · rw [hattempt, and_iff_right hrests, ← hstays.host, ← ih hrest (hstays.host ▸ hp)]
      exact exists_congr fun q => and_congr_right fun _ => ⟨hstays.symm.trans, hstays.trans⟩
    · refine iff_of_false ?_ fun h => hrests h.1
      rintro ⟨q, hq, -⟩
      cases hcase : G.attempt d r p with
      | idle p' => exact hattempt p' hcase
      | fired found p' =>
        rw [hcase] at hq
        cases hq
      | failed e p' =>
        rw [hcase] at hq
        cases hq

/-- The run from the host with these ids is over after one pass, in which no rule fires. -/
def IsFixed (G : Grammar) (d : Domain) (host : Graph) (ids : IdSupply) : Prop :=
  ∃ q, G.run d 1 { host, ids } = some (.settled, q) ∧ q.host = host ∧ q.ids = ids ∧
    q.passes = 1 ∧ q.firings = ∅

lemma isFixed_iff (hG : ∀ k, (G.strategy k).Exact) (hrules : ∀ r ∈ G.rules, r.graph.WellFormed)
    (hhost : host.WellFormed) : G.IsFixed d host ids ↔ ∀ r ∈ G.rules, r.Rests d host := by
  have hpass := pass_settled_iff (d := d) (p := Progress.beginPass { host, ids }) hG hrules hhost
  refine Iff.trans (exists_congr fun q => ?_) hpass
  unfold run run
  constructor
  · rintro ⟨hrun, hhost, hids, hpasses, hfirings⟩
    refine ⟨?_, hhost, hids, hpasses, hfirings⟩
    split at hrun
    · cases hrun
    next ending q' hcase =>
      cases hrun
      exact hcase
  · rintro ⟨hcase, hstays⟩
    rw [hcase]
    exact ⟨rfl, hstays.host, hstays.ids, hstays.passes, hstays.firings⟩

/-- However an exact strategy orders the embeddings, it finds a match for a rule exactly if the
backtracking search does, and then an embedding of the context that keeps labels and does not repeat
links. It decides likewise whether graphs are isomorphic, and the hosts that a grammar leaves as
they are do not depend on the strategies of its searches. -/
theorem visiting_order_irrelevant {host : Graph} (hhost : host.WellFormed) :
    (∀ (S : Strategy) (rule : Graph) (d : Domain), S.Exact → rule.WellFormed →
      ((host.findMatch rule d S).isEmpty = true ↔ (host.findMatch rule d).isEmpty = true) ∧
      ((host.findMatch rule d S).isEmpty = false →
        ∃ f, host.Suits (rule.context d) f ∧ ¬host.Repeats rule d f ∧
          host.findMatch rule d S = host.bindings (rule.context d) f)) ∧
    (∀ (S : Strategy) (g : Graph), S.Exact → g.WellFormed →
      host.isIsomorphicTo g S = host.isIsomorphicTo g) ∧
    ∀ (G : Grammar) (S : Nat → Strategy), (∀ r ∈ G.rules, r.graph.WellFormed) →
      (∀ k, (G.strategy k).Exact) → (∀ k, (S k).Exact) →
      ∀ d ids, { G with strategy := S }.IsFixed d host ids ↔ G.IsFixed d host ids := by
  refine ⟨fun S rule d hS hrule => ⟨?_, fun hfound => ?_⟩,
    fun S g hS hg => Graph.isIsomorphicTo_eq hS hhost hg, fun G S hrules hG hS d ids => ?_⟩
  · rw [Graph.isEmpty_findMatch_iff hS hhost hrule,
      Graph.isEmpty_findMatch_iff Strategy.backtracking_exact hhost hrule]
  · rcases Graph.findMatch_cases hS hhost hrule with ⟨hempty, -⟩ | hcandidate
    · rw [hempty] at hfound
      cases hfound
    · exact hcandidate
  · rw [isFixed_iff hG hrules hhost, isFixed_iff (G := { G with strategy := S }) hS hrules hhost]

/-- Of two topics the backtracking search finds the first and the same search reversed the second. A
topic that is linked is left as it is in either case. -/
theorem visiting_order_irrelevant_topics :
    let topic : Node := { id := ⟨0⟩, kind := "Topic", domain := .source, action := some .create }
    let link : Node :=
      { id := ⟨1⟩, kind := "TopicAxiom", domain := .correspondence, action := some .create }
    let g := (Graph.assemble [topic, link]
      [{ tail := ⟨1⟩, head := ⟨0⟩, action := some .create }]).after ∅
    let r : Rule := { name := "Axiom", graph := g, tagged := by decide +kernel }
    let host := (Graph.assemble
      [{ id := ⟨5⟩, kind := "Topic", domain := .source },
       { id := ⟨6⟩, kind := "Topic", domain := .source }] []).after ∅
    let linked := (Graph.assemble
      [{ id := ⟨5⟩, kind := "Topic", domain := .source },
       { id := ⟨7⟩, kind := "TopicAxiom", domain := .correspondence }]
      [{ tail := ⟨7⟩, head := ⟨5⟩ }]).after ∅
    let G : Grammar := { rules := [r] }
    let S := Strategy.backtracking.reversed
    host.WellFormed ∧ linked.WellFormed ∧ g.WellFormed ∧ S.Exact ∧
      (host.findMatch g .source).get? ⟨0⟩ = some ⟨5⟩ ∧
      (host.findMatch g .source S).get? ⟨0⟩ = some ⟨6⟩ ∧
      (∃ f, host.Suits (g.context .source) f ∧ ¬host.Repeats g .source f ∧
        host.findMatch g .source S = host.bindings (g.context .source) f) ∧
      host.isIsomorphicTo host S = true ∧
      { G with strategy := fun _ => S }.IsFixed .source linked { next := ⟨8⟩ } := by
  intro topic link g r host linked G S
  have hhost : host.WellFormed :=
    Graph.assemble_keeps_wellFormed _ _ ∅ (Graph.wellFormed_bare none)
  have hlinked : linked.WellFormed :=
    Graph.assemble_keeps_wellFormed _ _ ∅ (Graph.wellFormed_bare none)
  have hg : g.WellFormed := Graph.assemble_keeps_wellFormed _ _ ∅ (Graph.wellFormed_bare none)
  have hrules : ∀ r ∈ G.rules, r.graph.WellFormed := List.forall_mem_singleton.mpr hg
  have hG : ∀ k, (G.strategy k).Exact := fun _ => Strategy.backtracking_exact
  have hS : S.Exact := Strategy.backtracking_exact.reversed
  obtain ⟨hmatch, hiso, -⟩ := visiting_order_irrelevant hhost
  obtain ⟨-, -, hfixed⟩ := visiting_order_irrelevant hlinked
  have hrests : ∀ r ∈ G.rules, r.Rests .source linked :=
    List.forall_mem_singleton.mpr (Or.inr (Or.inl (by decide +kernel)))
  exact ⟨hhost, hlinked, hg, hS, by decide +kernel, by decide +kernel,
    (hmatch S g .source hS hg).2 (by decide +kernel),
    (hiso S host hS hhost).trans (by decide +kernel),
    (hfixed G (fun _ => S) hrules hG (fun _ => hS) .source _).mpr
      ((isFixed_iff hG hrules hlinked).mpr hrests)⟩

end Grammar

end TripleGrammar
