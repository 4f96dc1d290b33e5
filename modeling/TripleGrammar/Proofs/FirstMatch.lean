import TripleGrammar.Proofs.Links
import TripleGrammar.Proofs.Placings
import Mathlib.Data.List.TakeWhile

/-!
# Which match is found

The candidates for a match are the placings of the context that keep labels and edges, in
lexicographic order. Those at which firing would repeat links are passed over, each with an event,
and the first of the others is the match. All of this is said of nodes and edges, and neither of
matrices nor of the order in which the search narrows down its choices.
-/

namespace TripleGrammar.Graph

variable {host rule pattern : Graph} {d : Domain} {f : host.Placing pattern}

/-- The placing sends different nodes to different nodes, each to one of its type and domain, and
edges along edges of the host. -/
structure Suits (host pattern : Graph) (f : host.Placing pattern) : Prop where
  injective : Function.Injective f
  kind : ∀ i, (host.nodes.get (f i)).kind = (pattern.nodes.get i).kind
  domain : ∀ i, (host.nodes.get (f i)).domain = (pattern.nodes.get i).domain
  edge : ∀ i k, pattern.Adjacent i k → host.Adjacent (f i) (f k)

/-- Binds each node of the pattern to the one on which it is placed. -/
def bindings (host pattern : Graph) (f : host.Placing pattern) : Match :=
  .ofList <| (List.finRange pattern.nodes.length).map fun i =>
    ((pattern.nodes.get i).id, (host.nodes.get (f i)).id)

/-- The rule creates correspondences, and for each type among them the host has one of that type
whose edges into the domain lead to exactly the nodes of the domain on which a node is placed. -/
def Repeats (host rule : Graph) (d : Domain) {pattern : Graph} (f : host.Placing pattern) : Prop :=
  (∃ n ∈ rule.nodes, n.domain = .correspondence ∧ n.action = some .create) ∧
  ∀ n ∈ rule.nodes, n.domain = .correspondence → n.action = some .create →
    ∃ c ∈ host.nodes, c.domain = .correspondence ∧ c.kind = n.kind ∧ ∀ id,
      (∃ e ∈ host.edges, e.tail = c.id ∧ e.head = id ∧ host.domainOf? id = some d) ↔
        ∃ i, (host.nodes.get (f i)).id = id ∧ (host.nodes.get (f i)).domain = d

/-! ### Candidates -/

lemma labelsAgree_iff {i : Fin pattern.nodes.length} {j : Fin host.nodes.length} :
    host.labelsAgree pattern i j = true ↔
      (host.nodes.get j).kind = (pattern.nodes.get i).kind ∧
        (host.nodes.get j).domain = (pattern.nodes.get i).domain := by
  unfold labelsAgree Node.sameLabel
  rw [List.getElem?_eq_getElem i.isLt, List.getElem?_eq_getElem j.isLt]
  simp only [Bool.and_eq_true, beq_iff_eq, List.get_eq_getElem]
  exact and_congr eq_comm eq_comm

lemma exists_candidates (hhost : host.WellFormed) (hpattern : pattern.WellFormed) :
    ∃ fs : List (host.Placing pattern), (∀ f, f ∈ fs ↔ host.Suits pattern f) ∧
      fs.Pairwise (fun f g => toLex f < toLex g) ∧
      Strategy.backtracking.embeddings host.adjacency pattern.adjacency
        (host.labelsAgree pattern) = fs.map BitMatrix.ofPlacing := by
  obtain ⟨fs, hfs, hlex, heq⟩ := exists_placings hhost hpattern (host.labelsAgree pattern)
  refine ⟨fs, fun f => (hfs f).trans ?_, hlex, heq⟩
  simp only [labelsAgree_iff]
  constructor
  · rintro ⟨hinj, hedge, hlabel⟩
    exact ⟨hinj, fun i => (hlabel i).1, fun i => (hlabel i).2, hedge⟩
  · intro hf
    exact ⟨hf.injective, hf.edge, fun i => ⟨hf.kind i, hf.domain i⟩⟩

lemma Suits.agrees (hf : host.Suits pattern f) :
    host.agrees pattern (BitMatrix.ofPlacing f) = true := by
  unfold Graph.agrees
  rw [BitMatrix.ones_ofPlacing, List.all_eq_true]
  intro p hp
  obtain ⟨i, -, rfl⟩ := List.mem_map.mp hp
  exact labelsAgree_iff.mpr ⟨hf.kind i, hf.domain i⟩

/-! ### The match of a placing -/

lemma matchOf_ofPlacing (f : host.Placing pattern) :
    host.matchOf pattern (BitMatrix.ofPlacing f) = host.bindings pattern f := by
  rw [matchOf_eq, BitMatrix.ones_ofPlacing]
  unfold bindings placedPairs
  rw [List.filterMap_map, ← List.filterMap_eq_map]
  congr 2
  funext i
  simp [idAt?_eq_get]

lemma get?_bindings_iff (hpattern : pattern.WellFormed) {a b : NodeId} :
    (host.bindings pattern f).get? a = some b ↔
      ∃ i, (pattern.nodes.get i).id = a ∧ (host.nodes.get (f i)).id = b := by
  rw [← matchOf_ofPlacing, get?_matchOf_iff hpattern (BitMatrix.ones_ofPlacing f)]
  simp only [idAt?_eq_get, Option.some.injEq]

lemma isEmpty_bindings_iff (hpattern : pattern.WellFormed) :
    (host.bindings pattern f).isEmpty = true ↔ pattern.nodes = [] := by
  rw [← Bool.not_eq_false, SortedMap.isEmpty_eq_false_iff]
  simp only [get?_bindings_iff hpattern]
  constructor
  · intro h
    by_contra hne
    have hlt := List.length_pos_iff.mpr hne
    exact h ⟨_, _, ⟨0, hlt⟩, rfl, rfl⟩
  · rintro h ⟨_, _, i, -⟩
    exact absurd i.isLt (by simp [h])

lemma mem_boundIn_bindings_iff (hhost : host.WellFormed) (hpattern : pattern.WellFormed)
    {id : NodeId} : id ∈ host.boundIn d (host.bindings pattern f) ↔
      ∃ i, (host.nodes.get (f i)).id = id ∧ (host.nodes.get (f i)).domain = d := by
  unfold boundIn Node.idsIn
  simp only [List.mem_map, List.mem_filter, List.mem_filterMap, Match.mem_image_iff, beq_iff_eq,
    get?_bindings_iff hpattern]
  constructor
  · rintro ⟨n, ⟨⟨id', ⟨_, i, -, rfl⟩, hfind⟩, hd⟩, rfl⟩
    rw [hhost.find?_of_mem (List.get_mem _ _)] at hfind
    obtain rfl := Option.some.inj hfind
    exact ⟨i, rfl, hd⟩
  · rintro ⟨i, rfl, hd⟩
    have hmem : host.nodes.get (f i) ∈ host.nodes := List.get_mem _ _
    exact ⟨_, ⟨⟨_, ⟨_, i, rfl, rfl⟩, hhost.find?_of_mem hmem⟩, hd⟩, rfl⟩

lemma mem_createdLinkKinds_iff {k : String} : k ∈ rule.createdLinkKinds ↔
    ∃ n ∈ rule.nodes, n.domain = .correspondence ∧ n.action = some .create ∧ n.kind = k := by
  unfold createdLinkKinds nodesIn Node.hasAction
  simp only [List.mem_map, List.mem_filter, beq_iff_eq, and_assoc]

lemma repeatsAt_ofPlacing_iff (hhost : host.WellFormed) (hpattern : pattern.WellFormed) :
    host.repeatsAt pattern (host.links d) rule.createdLinkKinds d (BitMatrix.ofPlacing f) = true ↔
      host.Repeats rule d f := by
  unfold repeatsAt Repeats
  rw [repeatsLinks_iff hhost, matchOf_ofPlacing]
  unfold Joins
  simp only [mem_boundIn_bindings_iff hhost hpattern, mem_createdLinkKinds_iff]
  constructor
  · rintro ⟨hne, hall⟩
    obtain ⟨k, hk⟩ := List.exists_mem_of_ne_nil _ hne
    obtain ⟨n, hn, hd, ha, -⟩ := mem_createdLinkKinds_iff.mp hk
    exact ⟨⟨n, hn, hd, ha⟩, fun n hn hd ha => hall _ ⟨n, hn, hd, ha, rfl⟩⟩
  · rintro ⟨⟨n, hn, hd, ha⟩, hall⟩
    refine ⟨List.ne_nil_of_mem (mem_createdLinkKinds_iff.mpr ⟨n, hn, hd, ha, rfl⟩), ?_⟩
    rintro _ ⟨n, hn, hd, ha, rfl⟩
    exact hall n hn hd ha

/-! ### The search -/

/-- The search is over at the first candidate that does not repeat links. -/
lemma searchMatch_eq {fs : List (host.Placing (rule.context d))}
    (hfs : ∀ f ∈ fs, host.Suits (rule.context d) f)
    (heq : Strategy.backtracking.embeddings host.adjacency (rule.context d).adjacency
      (host.labelsAgree (rule.context d)) = fs.map BitMatrix.ofPlacing) :
    let repeats : host.Placing (rule.context d) → Bool := fun f =>
      host.repeatsAt (rule.context d) (host.links d) rule.createdLinkKinds d (BitMatrix.ofPlacing f)
    host.searchMatch rule d .backtracking =
      { found := (fs.dropWhile repeats).head?.elim ∅ (host.bindings (rule.context d))
        skipped := ((fs.takeWhile repeats).map fun f =>
          (host.bindings (rule.context d) f).image).toArray } := by
  have hagree : (fs.map BitMatrix.ofPlacing).filter (host.agrees (rule.context d)) =
      fs.map BitMatrix.ofPlacing := by
    rw [List.filter_eq_self]
    intro m hm
    obtain ⟨f, hf, rfl⟩ := List.mem_map.mp hm
    exact (hfs f hf).agrees
  unfold searchMatch
  dsimp only
  rw [Strategy.search_eq, heq, value_visitEach_considerMatch, hagree, List.dropWhile_map,
    List.takeWhile_map, List.head?_map, List.map_map]
  simp only [Function.comp_def, matchOf_ofPlacing, Option.elim_map]
  simp

/-- If no match is found for a context that has nodes, every candidate repeats links. -/
lemma repeats_of_isEmpty (hhost : host.WellFormed) (hrule : rule.WellFormed)
    (hnodes : (rule.context d).nodes ≠ [])
    (hempty : (host.searchMatch rule d .backtracking).found.isEmpty = true)
    {f : host.Placing (rule.context d)} (hf : host.Suits (rule.context d) f) :
    host.Repeats rule d f := by
  have hpattern := (isPart_context hrule d).wellFormed
  obtain ⟨fs, hfs, -, heq⟩ := exists_candidates hhost hpattern
  rw [searchMatch_eq (fun f hf => (hfs f).mp hf) heq] at hempty
  dsimp only at hempty
  rw [← repeatsAt_ofPlacing_iff hhost hpattern]
  cases hrest : fs.dropWhile fun f => host.repeatsAt (rule.context d) (host.links d)
      rule.createdLinkKinds d (BitMatrix.ofPlacing f) with
  | nil => exact List.dropWhile_eq_nil_iff.mp hrest f ((hfs f).mpr hf)
  | cons f' rest =>
    rw [hrest] at hempty
    exact absurd ((isEmpty_bindings_iff hpattern).mp hempty) hnodes

/-- Of the candidates, in lexicographic order, the search passes over those that repeat links and
logs an event for each. The first of the others is the match that it finds. There is none if there
is no other, or if the context has no nodes. -/
theorem findMatch_first_candidate (hhost : host.WellFormed) (hrule : rule.WellFormed)
    (d : Domain) :
    ∃ skipped rest : List (host.Placing (rule.context d)),
      (∀ f, f ∈ skipped ++ rest ↔ host.Suits (rule.context d) f) ∧
      (skipped ++ rest).Pairwise (fun f g => toLex f < toLex g) ∧
      (∀ f ∈ skipped, host.Repeats rule d f) ∧
      (∀ f ∈ rest.head?, ¬host.Repeats rule d f ∧
        ∀ a b, (host.findMatch rule d).get? a = some b ↔
          ∃ i, ((rule.context d).nodes.get i).id = a ∧ (host.nodes.get (f i)).id = b) ∧
      ((host.findMatch rule d).isEmpty = true ↔ rest = [] ∨ (rule.context d).nodes = []) ∧
      (host.searchMatch rule d .backtracking).events rule.name = skipped.map fun f =>
        .matchSkipped rule.name (host.bindings (rule.context d) f).image := by
  have hpattern := (isPart_context hrule d).wellFormed
  obtain ⟨fs, hfs, hlex, heq⟩ := exists_candidates hhost hpattern
  let repeats : host.Placing (rule.context d) → Bool := fun f =>
    host.repeatsAt (rule.context d) (host.links d) rule.createdLinkKinds d (BitMatrix.ofPlacing f)
  have hrepeats : ∀ f, repeats f = true ↔ host.Repeats rule d f :=
    fun f => repeatsAt_ofPlacing_iff hhost hpattern
  have hsearch := searchMatch_eq (fun f hf => (hfs f).mp hf) heq
  have hfound : host.findMatch rule d =
      (fs.dropWhile repeats).head?.elim ∅ (host.bindings (rule.context d)) := by
    unfold findMatch
    rw [hsearch]
  refine ⟨fs.takeWhile repeats, fs.dropWhile repeats, ?_, ?_, ?_, ?_, ?_, ?_⟩
  · rwa [List.takeWhile_append_dropWhile]
  · rwa [List.takeWhile_append_dropWhile]
  · intro f hf
    exact (hrepeats f).mp (List.mem_takeWhile_imp hf)
  · intro f hf
    have hhead := List.head?_dropWhile_not repeats fs
    rw [Option.mem_def.mp hf] at hhead
    refine ⟨fun h => absurd ((hrepeats f).mpr h) (by simpa using hhead), fun a b => ?_⟩
    rw [hfound, Option.mem_def.mp hf]
    exact get?_bindings_iff hpattern
  · rw [hfound]
    cases fs.dropWhile repeats with
    | nil => simp [SortedMap.isEmpty, EmptyCollection.emptyCollection]
    | cons f rest => simp [isEmpty_bindings_iff hpattern]
  · unfold MatchSearch.events
    rw [hsearch]
    simp [repeats]

/-- The first of two classes is linked already, so the second is found. -/
theorem findMatch_first_candidate_classes :
    let cls : Node := { id := ⟨0⟩, kind := "Class", domain := .source, action := some .create }
    let link : Node :=
      { id := ⟨1⟩, kind := "Link", domain := .correspondence, action := some .create }
    let rule := (assemble [cls, link]
      [{ tail := ⟨1⟩, head := ⟨0⟩, action := some .create }]).after ∅
    let host := (assemble
      [{ id := ⟨5⟩, kind := "Class", domain := .source },
       { id := ⟨6⟩, kind := "Class", domain := .source },
       { id := ⟨7⟩, kind := "Link", domain := .correspondence }]
      [{ tail := ⟨7⟩, head := ⟨5⟩ }]).after ∅
    host.WellFormed ∧ rule.WellFormed ∧
      (host.findMatch rule .source).get? ⟨0⟩ = some ⟨6⟩ ∧
      ∃ skipped rest : List (host.Placing (rule.context .source)),
        (∀ f, f ∈ skipped ++ rest ↔ host.Suits (rule.context .source) f) ∧
        skipped.length = 1 ∧ rest ≠ [] ∧ (∀ f ∈ skipped, host.Repeats rule .source f) ∧
        ∀ f ∈ rest.head?, ¬host.Repeats rule .source f := by
  intro cls link rule host
  have hhost : host.WellFormed := assemble_keeps_wellFormed _ _ ∅ (wellFormed_bare none)
  have hrule : rule.WellFormed := assemble_keeps_wellFormed _ _ ∅ (wellFormed_bare none)
  obtain ⟨skipped, rest, hall, -, hskipped, hrest, hempty, hevents⟩ :=
    findMatch_first_candidate hhost hrule .source
  have hone : ((host.searchMatch rule .source .backtracking).events rule.name).length = 1 := by
    decide +kernel
  rw [hevents, List.length_map] at hone
  have hfound : (host.findMatch rule .source).isEmpty = false := by decide +kernel
  refine ⟨hhost, hrule, by decide +kernel, skipped, rest, hall, hone, ?_, hskipped,
    fun f hf => (hrest f hf).1⟩
  intro hnil
  rw [hempty.mpr (Or.inl hnil)] at hfound
  cases hfound

end TripleGrammar.Graph
