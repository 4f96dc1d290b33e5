import TripleGrammar.Proofs.Embeddings
import TripleGrammar.Proofs.Parts
import TripleGrammar.SortedMap.Lemmas
import TripleGrammar.Matching

/-!
# Matches that are found

A match that a sound strategy leads to binds the nodes of the context and nothing else, and firing
there would not repeat what is linked already. The strategy need not heed labels, since the search
looks at them again.
-/

namespace TripleGrammar

lemma Match.mem_image_iff {m : Match} {id : NodeId} :
    id ∈ m.image ↔ ∃ k, m.get? k = some id := by
  have himage : m.image = SortedMap.distinct m.values := by
    unfold Match.image SortedMap.distinct SortedMap.ofList
    rw [List.foldl_map]
  rw [himage, SortedMap.mem_distinct, SortedMap.mem_values_iff]

namespace Graph

variable {host rule pattern : Graph} {d : Domain} {found : Match} {S : Strategy}

/-- The match binds exactly the nodes of the context read from `d`, each to a host node of its type
and domain and different ones to different host nodes, and context edges run along host edges. -/
structure Fits (host rule : Graph) (d : Domain) (found : Match) : Prop where
  contains_iff : ∀ id, found.contains id = true ↔ (rule.context d).contains id = true
  label : ∀ n ∈ (rule.context d).nodes, ∃ m ∈ host.nodes,
    found.get? n.id = some m.id ∧ m.kind = n.kind ∧ m.domain = n.domain
  injective : ∀ a b id, found.get? a = some id → found.get? b = some id → a = b
  edge : ∀ e ∈ rule.contextEdges d, ∃ e' ∈ host.edges,
    found.get? e.tail = some e'.tail ∧ found.get? e.head = some e'.head

/-- The nodes of the domain that the match binds. -/
def boundIn (host : Graph) (d : Domain) (found : Match) : List NodeId :=
  Node.idsIn d (found.image.filterMap host.find?)

/-! ### From an assignment to a match -/

lemma matchOf_eq (m : BitMatrix) : host.matchOf pattern m =
    .ofList (m.ones.filterMap fun (i, j) =>
      (pattern.idAt? i).bind fun a => (host.idAt? j).map fun b => (a, b)) := by
  unfold matchOf SortedMap.ofList idAt?
  rw [List.foldl_filterMap]
  congr
  funext found ⟨i, j⟩
  dsimp only
  cases pattern.nodes[i]? <;> cases host.nodes[j]? <;> rfl

section

variable {p h : Nat} {f : Fin p → Fin h} {m : BitMatrix}

lemma get?_matchOf_iff (hpattern : pattern.WellFormed) (hm : m.ones = placedPairs f)
    {a b : NodeId} : (host.matchOf pattern m).get? a = some b ↔
      ∃ i : Fin p, pattern.idAt? i = some a ∧ host.idAt? (f i) = some b := by
  have hentry : ∀ a b, (a, b) ∈ (m.ones.filterMap fun (i, j) =>
      (pattern.idAt? i).bind fun a => (host.idAt? j).map fun b => (a, b)) ↔
        ∃ i : Fin p, pattern.idAt? i = some a ∧ host.idAt? (f i) = some b := by
    intro a b
    simp [hm, placedPairs, Option.bind_eq_some_iff]
  rw [matchOf_eq, SortedMap.get?_ofList_iff, hentry]
  intro k a b ha hb
  obtain ⟨i, hi, hia⟩ := (hentry k a).mp ha
  obtain ⟨j, hj, hjb⟩ := (hentry k b).mp hb
  -- ids are not repeated in the pattern, so both entries come from one pair
  have hij : (i : Nat) = j :=
    Option.some.inj ((hpattern.indexOf?_iff.mpr hi).symm.trans (hpattern.indexOf?_iff.mpr hj))
  obtain rfl := Fin.ext hij
  exact Option.some.inj (hia.symm.trans hjb)

lemma labelsAgree_of_all (hm : m.ones = placedPairs f)
    (hlabels : (m.ones.all fun (i, j) => host.labelsAgree pattern i j) = true) (i : Fin p) :
    host.labelsAgree pattern i (f i) = true := by
  rw [hm] at hlabels
  exact List.all_eq_true.mp hlabels _ (List.mem_map.mpr ⟨i, List.mem_finRange i, rfl⟩)

end

lemma exists_label_of_labelsAgree {i j : Nat} (h : host.labelsAgree pattern i j = true) :
    ∃ n m, pattern.nodes[i]? = some n ∧ host.nodes[j]? = some m ∧
      m.kind = n.kind ∧ m.domain = n.domain := by
  unfold labelsAgree at h
  split at h
  next n m hn hm =>
    simp only [Node.sameLabel, Bool.and_eq_true, beq_iff_eq] at h
    exact ⟨n, m, hn, hm, h.1.symm, h.2.symm⟩
  · cases h

section

variable {f : Fin pattern.adjacency.rows → Fin host.adjacency.rows} {m : BitMatrix}

lemma label_matchOf (hpattern : pattern.WellFormed) (hm : m.ones = placedPairs f)
    (hlabels : (m.ones.all fun (i, j) => host.labelsAgree pattern i j) = true) {n : Node}
    (hn : n ∈ pattern.nodes) : ∃ m' ∈ host.nodes,
      (host.matchOf pattern m).get? n.id = some m'.id ∧ m'.kind = n.kind ∧
        m'.domain = n.domain := by
  obtain ⟨i, hi⟩ := List.mem_iff_getElem?.mp hn
  have hlt : i < pattern.adjacency.rows := by
    rw [hpattern.rows_eq]
    exact (List.getElem?_eq_some_iff.mp hi).1
  obtain ⟨n', m', hn', hm', hkind, hdomain⟩ :=
    exists_label_of_labelsAgree (labelsAgree_of_all hm hlabels ⟨i, hlt⟩)
  obtain rfl : n = n' := Option.some.inj (hi.symm.trans hn')
  refine ⟨m', List.mem_of_getElem? hm', ?_, hkind, hdomain⟩
  rw [get?_matchOf_iff hpattern hm]
  exact ⟨⟨i, hlt⟩, idAt?_eq_some_iff.mpr ⟨n, hi, rfl⟩, idAt?_eq_some_iff.mpr ⟨m', hm', rfl⟩⟩

lemma contains_matchOf_iff (hpattern : pattern.WellFormed) (hm : m.ones = placedPairs f)
    (hlabels : (m.ones.all fun (i, j) => host.labelsAgree pattern i j) = true) (id : NodeId) :
    (host.matchOf pattern m).contains id = true ↔ pattern.contains id = true := by
  constructor
  · intro hid
    obtain ⟨b, hb⟩ := Option.isSome_iff_exists.mp hid
    obtain ⟨i, hi, -⟩ := (get?_matchOf_iff hpattern hm).mp hb
    exact contains_iff_exists.mpr ⟨i, hpattern.indexOf?_iff.mpr hi⟩
  · intro hid
    obtain ⟨n, hn, rfl, -⟩ := hpattern.exists_find? hid
    obtain ⟨m', -, hm', -, -⟩ := label_matchOf hpattern hm hlabels hn
    exact Option.isSome_iff_exists.mpr ⟨_, hm'⟩

lemma injective_matchOf (hhost : host.WellFormed) (hpattern : pattern.WellFormed)
    (hf : Function.Injective f) (hm : m.ones = placedPairs f) {a b id : NodeId}
    (ha : (host.matchOf pattern m).get? a = some id)
    (hb : (host.matchOf pattern m).get? b = some id) : a = b := by
  obtain ⟨i, hia, hi⟩ := (get?_matchOf_iff hpattern hm).mp ha
  obtain ⟨j, hjb, hj⟩ := (get?_matchOf_iff hpattern hm).mp hb
  have hij : (f i : Nat) = f j :=
    Option.some.inj ((hhost.indexOf?_iff.mpr hi).symm.trans (hhost.indexOf?_iff.mpr hj))
  obtain rfl := hf (Fin.ext hij)
  exact Option.some.inj (hia.symm.trans hjb)

lemma edge_matchOf (hhost : host.WellFormed) (hpattern : pattern.WellFormed)
    (hf : Embeds host.adjacency pattern.adjacency (fun _ _ => true) f)
    (hm : m.ones = placedPairs f) {e : Edge} (he : e ∈ pattern.edges) : ∃ e' ∈ host.edges,
      (host.matchOf pattern m).get? e.tail = some e'.tail ∧
        (host.matchOf pattern m).get? e.head = some e'.head := by
  obtain ⟨i, hi⟩ := contains_iff_exists.mp (hpattern.contains_tail he)
  obtain ⟨k, hk⟩ := contains_iff_exists.mp (hpattern.contains_head he)
  have hia := hpattern.indexOf?_iff.mp hi
  have hkb := hpattern.indexOf?_iff.mp hk
  have hbit := (hpattern.get_iff i k).mpr ⟨e, he, hia, hkb⟩
  obtain ⟨hilt, -⟩ := BitMatrix.lt_of_get hbit
  have hklt : k < pattern.adjacency.rows := by
    rw [hpattern.rows_eq]
    exact lt_of_idAt? hkb
  obtain ⟨e', he', ht, hh⟩ := (hhost.get_iff _ _).mp (hf.edge ⟨i, hilt⟩ ⟨k, hklt⟩ hbit)
  refine ⟨e', he', ?_, ?_⟩
  · exact (get?_matchOf_iff hpattern hm).mpr ⟨⟨i, hilt⟩, hia, ht⟩
  · exact (get?_matchOf_iff hpattern hm).mpr ⟨⟨k, hklt⟩, hkb, hh⟩

end

lemma fits_matchOf (hhost : host.WellFormed) (hrule : rule.WellFormed) {m : BitMatrix}
    {f : Fin (rule.context d).adjacency.rows → Fin host.adjacency.rows}
    (hf : Embeds host.adjacency (rule.context d).adjacency (fun _ _ => true) f)
    (hm : m.ones = placedPairs f)
    (hlabels : (m.ones.all fun (i, j) => host.labelsAgree (rule.context d) i j) = true) :
    host.Fits rule d (host.matchOf (rule.context d) m) := by
  have hpattern := (isPart_context hrule d).wellFormed
  refine ⟨contains_matchOf_iff hpattern hm hlabels, ?_, ?_, ?_⟩
  · exact fun n hn => label_matchOf hpattern hm hlabels hn
  · exact fun a b id ha hb => injective_matchOf hhost hpattern hf.injective hm ha hb
  · intro e he
    rw [← edges_context hrule d] at he
    exact edge_matchOf hhost hpattern hf hm he

/-! ### The search -/

/-- The assignment places each node on one with its labels. -/
def agrees (host pattern : Graph) (m : BitMatrix) : Bool :=
  m.ones.all fun (i, j) => host.labelsAgree pattern i j

/-- The match of the assignment repeats links. -/
def repeatsAt (host pattern : Graph) (links : List Link) (kinds : List String) (d : Domain)
    (m : BitMatrix) : Bool :=
  repeatsLinks links kinds (host.boundIn d (host.matchOf pattern m))

section

variable {links : List Link} {kinds : List String} {m : BitMatrix}

lemma considerMatch_of_agrees (h : host.agrees pattern m = true) (s : MatchSearch) :
    host.considerMatch pattern links kinds d m s =
      if host.repeatsAt pattern links kinds d m = true then
        .yield { s with skipped := s.skipped.push (host.matchOf pattern m).image }
      else .done { s with found := host.matchOf pattern m } := by
  unfold considerMatch
  exact if_pos h

lemma considerMatch_of_not_agrees (h : ¬host.agrees pattern m = true) (s : MatchSearch) :
    host.considerMatch pattern links kinds d m s = .yield s := by
  unfold considerMatch
  exact if_neg h

/-- Of the assignments whose labels agree, the search passes over those that repeat links, up to the
first one that does not, which it takes. -/
lemma value_visitEach_considerMatch (links : List Link) (kinds : List String) (ms : List BitMatrix)
    (s : MatchSearch) :
    let agreeing := ms.filter (host.agrees pattern)
    let repeats := host.repeatsAt pattern links kinds d
    (visitEach (host.considerMatch pattern links kinds d) ms s).value =
      { found := (agreeing.dropWhile repeats).head?.elim s.found (host.matchOf pattern)
        skipped := s.skipped ++
          ((agreeing.takeWhile repeats).map fun m => (host.matchOf pattern m).image).toArray } := by
  dsimp only
  induction ms generalizing s with
  | nil => simp [ForInStep.value]
  | cons m ms ih =>
    unfold visitEach
    by_cases hagrees : host.agrees pattern m = true
    · rw [considerMatch_of_agrees hagrees, List.filter_cons_of_pos hagrees]
      by_cases hrepeats : host.repeatsAt pattern links kinds d m = true
      · rw [if_pos hrepeats, List.dropWhile_cons_of_pos hrepeats,
          List.takeWhile_cons_of_pos hrepeats]
        simp only [ih]
        simp
      · rw [if_neg hrepeats, List.dropWhile_cons_of_neg hrepeats,
          List.takeWhile_cons_of_neg hrepeats]
        simp [ForInStep.value]
    · rw [considerMatch_of_not_agrees hagrees, List.filter_cons_of_neg hagrees]
      exact ih s

/-- A search that has not found anything before finds nothing, or the match of an assignment whose
labels agree and that repeats no link. -/
lemma found_visitEach (links : List Link) (kinds : List String) (ms : List BitMatrix)
    (s : MatchSearch) (hs : s.found = ∅) :
    let t := (visitEach (host.considerMatch pattern links kinds d) ms s).value
    t.found = ∅ ∨ ∃ m ∈ ms, (m.ones.all fun (i, j) => host.labelsAgree pattern i j) = true ∧
      t.found = host.matchOf pattern m ∧
      repeatsLinks links kinds (host.boundIn d (host.matchOf pattern m)) = false := by
  dsimp only
  rw [value_visitEach_considerMatch, hs]
  cases hrest : (ms.filter (host.agrees pattern)).dropWhile
      (host.repeatsAt pattern links kinds d) with
  | nil => exact Or.inl rfl
  | cons m rest =>
    have hmem : m ∈ ms.filter (host.agrees pattern) :=
      (List.dropWhile_sublist _).subset (by rw [hrest]; exact List.mem_cons_self)
    obtain ⟨hm, hagrees⟩ := List.mem_filter.mp hmem
    have hhead := List.head?_dropWhile_not (host.repeatsAt pattern links kinds d)
      (ms.filter (host.agrees pattern))
    rw [hrest] at hhead
    exact Or.inr ⟨m, hm, hagrees, rfl, hhead⟩

end

theorem fits_of_searchMatch (hS : S.Sound) (hhost : host.WellFormed) (hrule : rule.WellFormed)
    (hfound : (host.searchMatch rule d S).found.isEmpty = false) :
    host.Fits rule d (host.searchMatch rule d S).found ∧
      repeatsLinks (host.links d) rule.createdLinkKinds
        (host.boundIn d (host.searchMatch rule d S).found) = false := by
  have hpattern := (isPart_context hrule d).wellFormed
  unfold searchMatch at hfound ⊢
  dsimp only at hfound ⊢
  rw [S.search_eq] at hfound ⊢
  rcases found_visitEach (host.links d) rule.createdLinkKinds _ {} rfl with
    hnone | ⟨m, hm, hlabels, heq, hrepeats⟩
  · rw [hnone] at hfound
    cases hfound
  · obtain ⟨f, hf, hones⟩ := hS _ _ _ hhost.rows_eq_cols hpattern.rows_eq_cols m hm
    rw [heq]
    exact ⟨fits_matchOf hhost hrule hf hones hlabels, hrepeats⟩

/-! ### Matches that fit -/

namespace Fits

variable {n : Node} {id : NodeId}

lemma exists_host_node (h : host.Fits rule d found) (hrule : rule.WellFormed) (hn : n ∈ rule.nodes)
    (hid : found.get? n.id = some id) :
    ∃ m ∈ host.nodes, m.id = id ∧ m.kind = n.kind ∧ m.domain = n.domain := by
  have hpart := isPart_context hrule d
  have hcontains : (rule.context d).contains n.id = true :=
    (h.contains_iff _).mp (Option.isSome_iff_exists.mpr ⟨id, hid⟩)
  obtain ⟨n', hn', hnid, -⟩ := hpart.wellFormed.exists_find? hcontains
  obtain rfl := hrule.eq_of_id_eq (hpart.mem n' hn') hn hnid
  obtain ⟨m, hm, hget, hkind, hdomain⟩ := h.label n' hn'
  exact ⟨m, hm, Option.some.inj (hget.symm.trans hid), hkind, hdomain⟩

lemma exists_rule_node (h : host.Fits rule d found) (hrule : rule.WellFormed) {k : NodeId}
    (hk : found.get? k = some id) : ∃ n ∈ rule.nodes, n.id = k := by
  have hpart := isPart_context hrule d
  have hcontains : (rule.context d).contains k = true :=
    (h.contains_iff _).mp (Option.isSome_iff_exists.mpr ⟨id, hk⟩)
  obtain ⟨n, hn, hid, -⟩ := hpart.wellFormed.exists_find? hcontains
  exact ⟨n, hpart.mem n hn, hid⟩

/-- The nodes of the domain that are bound are the images of the nodes of the domain in the rule. -/
lemma mem_boundIn_iff (h : host.Fits rule d found) (hhost : host.WellFormed)
    (hrule : rule.WellFormed) :
    id ∈ host.boundIn d found ↔ ∃ n ∈ rule.nodesIn d, found.get? n.id = some id := by
  unfold boundIn Node.idsIn
  simp only [List.mem_map, List.mem_filter, List.mem_filterMap, Match.mem_image_iff, beq_iff_eq]
  constructor
  · rintro ⟨m, ⟨⟨id', ⟨k, hk⟩, hfind⟩, hdomain⟩, rfl⟩
    obtain ⟨hm, rfl⟩ := hhost.find?_iff.mp hfind
    obtain ⟨n, hn, rfl⟩ := h.exists_rule_node hrule hk
    obtain ⟨m', hm', hid, -, hsame⟩ := h.exists_host_node hrule hn hk
    obtain rfl := hhost.eq_of_id_eq hm' hm hid
    exact ⟨n, List.mem_filter.mpr ⟨hn, by rw [← hsame, hdomain]; exact beq_self_eq_true d⟩, hk⟩
  · rintro ⟨n, hn, hk⟩
    obtain ⟨hn, hdomain⟩ := List.mem_filter.mp hn
    obtain ⟨m, hm, rfl, -, hsame⟩ := h.exists_host_node hrule hn hk
    refine ⟨m, ⟨⟨m.id, ⟨n.id, hk⟩, hhost.find?_of_mem hm⟩, ?_⟩, rfl⟩
    rw [hsame]
    exact eq_of_beq hdomain

end Fits

end Graph

end TripleGrammar
