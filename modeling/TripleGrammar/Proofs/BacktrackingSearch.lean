import TripleGrammar.Embedding.Backtracking
import TripleGrammar.Proofs.Embeddings
import Mathlib.Data.Fintype.Card
import Mathlib.Data.Set.List
import Mathlib.Order.PiLex

/-!
# What the backtracking search shows

The search places the pattern nodes one after the other and gives up a branch as soon as a node does
not fit. It shows exactly the embeddings, in lexicographic order, and a visitor that stops sees
those up to the one at which it stops. That narrowing down the host nodes beforehand loses no
embedding is the one place where degrees matter.
-/

namespace TripleGrammar

namespace Backtracking

variable {host pattern : BitMatrix} {compatible : Nat → Nat → Bool}

/-! ### Ways to go on from a partial placement -/

lemma fits_iff {placed : List Nat} {j : Nat} :
    fits host pattern placed j = true ↔ j ∉ placed ∧ ∀ k m, placed[k]? = some m →
      (pattern.get placed.length k = true → host.get j m = true) ∧
      (pattern.get k placed.length = true → host.get m j = true) := by
  unfold fits
  simp only [Bool.and_eq_true, Bool.not_eq_true', List.all_eq_true, Bool.or_eq_true,
    List.contains_eq_mem, decide_eq_false_iff_not, Prod.forall, List.mem_zipIdx_iff_getElem?]
  have himp : ∀ a b : Bool, (a = false ∨ b = true) ↔ (a = true → b = true) := by decide
  simp only [himp]
  constructor
  · rintro ⟨hmem, hall⟩
    exact ⟨hmem, fun k m hk => hall m k hk⟩
  · rintro ⟨hmem, hall⟩
    exact ⟨hmem, fun m k hk => hall k m hk⟩

/-- Each further node goes to one of its candidates, where it fits what is placed before it. -/
lemma mem_placements_iff {choices : List (List Nat)} {placed l : List Nat} :
    l ∈ placements host pattern choices placed ↔
      ∃ rest, l = placed ++ rest ∧ rest.length = choices.length ∧
        ∀ i j, rest[i]? = some j → (∃ js, choices[i]? = some js ∧ j ∈ js) ∧
          fits host pattern (placed ++ rest.take i) j = true := by
  induction choices generalizing placed with
  | nil =>
    simp only [placements, List.mem_singleton, List.length_nil, List.length_eq_zero_iff]
    constructor
    · rintro rfl
      exact ⟨[], by simp, rfl, by simp⟩
    · rintro ⟨rest, rfl, rfl, -⟩
      simp
  | cons js choices ih =>
    simp only [placements, List.mem_flatMap, List.mem_filter, ih]
    constructor
    · rintro ⟨j, ⟨hj, hfits⟩, rest, rfl, hlen, hrest⟩
      refine ⟨j :: rest, by simp, by simp [hlen], ?_⟩
      intro i k hk
      cases i with
      | zero =>
        obtain rfl : j = k := by simpa using hk
        exact ⟨⟨js, rfl, hj⟩, by simpa using hfits⟩
      | succ i =>
        have hi := hrest i k (by simpa using hk)
        simpa using hi
    · rintro ⟨rest, rfl, hlen, hrest⟩
      cases rest with
      | nil => simp at hlen
      | cons j rest =>
        have hfirst := hrest 0 j rfl
        refine ⟨j, ⟨by simpa using hfirst.1, by simpa using hfirst.2⟩, rest, by simp,
          by simpa using hlen, ?_⟩
        intro i k hk
        have hi := hrest (i + 1) k (by simpa using hk)
        simpa using hi

/-- At the first position at which the lists differ, the first one has the smaller entry. -/
def Precedes (l l' : List Nat) : Prop :=
  ∃ pre j j' r r', l = pre ++ j :: r ∧ l' = pre ++ j' :: r' ∧ j < j'

/-- Candidates that are tried in ascending order lead to placements in lexicographic order. -/
lemma placements_pairwise {choices : List (List Nat)}
    (hchoices : ∀ js ∈ choices, js.Pairwise (· < ·)) (placed : List Nat) :
    (placements host pattern choices placed).Pairwise Precedes := by
  induction choices generalizing placed with
  | nil => exact List.pairwise_singleton _ _
  | cons js choices ih =>
    have hrest : ∀ js ∈ choices, js.Pairwise (· < ·) :=
      fun ks hks => hchoices ks (List.mem_cons_of_mem _ hks)
    unfold placements
    rw [List.pairwise_flatMap]
    refine ⟨fun j _ => ih hrest _, ?_⟩
    apply ((hchoices js List.mem_cons_self).filter _).imp
    intro j j' hlt l hl l' hl'
    obtain ⟨r, rfl, -⟩ := mem_placements_iff.mp hl
    obtain ⟨r', rfl, -⟩ := mem_placements_iff.mp hl'
    exact ⟨placed, j, j', r, r', by simp, by simp, hlt⟩

/-! ### Candidates -/

lemma getD_outDegrees (m : BitMatrix) {r : Nat} (hr : r < m.rows) :
    (outDegrees m).getD r 0 = (List.range m.cols).countP (m.get r) := by
  simp [outDegrees, hr]

lemma getD_inDegrees (m : BitMatrix) {c : Nat} (hc : c < m.cols) :
    (inDegrees m).getD c 0 = (List.range m.rows).countP (m.get · c) := by
  simp [inDegrees, hc]

lemma countP_range_le {p h : Nat} {q q' : Nat → Bool} (f : Fin p → Fin h)
    (hf : Function.Injective f) (hq : ∀ k : Fin p, q k = true → q' (f k) = true) :
    (List.range p).countP q ≤ (List.range h).countP q' := by
  have hrange : List.range p = (List.finRange p).map Fin.val :=
    List.ext_getElem (by simp) (by simp)
  let images := ((List.finRange p).filter fun k : Fin p => q k).map fun k => (f k : Nat)
  have hlength : (List.range p).countP q = images.length := by
    rw [hrange, List.countP_map, List.countP_eq_length_filter, List.length_map]
    rfl
  have hnodup : images.Nodup := by
    apply List.Nodup.map
    · intro a b hab
      exact hf (Fin.ext hab)
    · exact (List.nodup_finRange p).filter _
  have hsubset : images ⊆ (List.range h).filter q' := by
    intro j hj
    obtain ⟨k, hk, rfl⟩ := List.mem_map.mp hj
    have hqk : q k = true := (List.mem_filter.mp hk).2
    exact List.mem_filter.mpr ⟨List.mem_range.mpr (f k).isLt, hq k hqk⟩
  rw [hlength, List.countP_eq_length_filter]
  exact (List.subperm_of_subset hnodup hsubset).length_le

lemma length_candidates : (candidates host pattern compatible).length = pattern.rows := by
  simp [candidates]

lemma pairwise_of_mem_candidates {js : List Nat}
    (hjs : js ∈ candidates host pattern compatible) : js.Pairwise (· < ·) := by
  obtain ⟨i, -, rfl⟩ := List.mem_map.mp hjs
  exact List.pairwise_lt_range.filter _

lemma mem_candidates_iff {i j : Nat} :
    (∃ js, (candidates host pattern compatible)[i]? = some js ∧ j ∈ js) ↔
      i < pattern.rows ∧ j < host.rows ∧
      (outDegrees pattern).getD i 0 ≤ (outDegrees host).getD j 0 ∧
      (inDegrees pattern).getD i 0 ≤ (inDegrees host).getD j 0 ∧
      (pattern.get i i = true → host.get j j = true) ∧ compatible i j = true := by
  have himp : ∀ a b : Bool, (!a || b) = true ↔ (a = true → b = true) := by decide
  unfold candidates
  simp only [List.getElem?_map, Option.map_eq_some_iff, exists_exists_and_eq_and, List.mem_filter,
    List.mem_range, Bool.and_eq_true, decide_eq_true_eq, himp]
  constructor
  · rintro ⟨k, hk, hj, ⟨⟨hout, hin⟩, hloop⟩, hcompatible⟩
    obtain ⟨hlt, hk⟩ := List.getElem?_eq_some_iff.mp hk
    rw [List.getElem_range] at hk
    subst hk
    exact ⟨by simpa using hlt, hj, hout, hin, hloop, hcompatible⟩
  · rintro ⟨hi, hj, hout, hin, hloop, hcompatible⟩
    exact ⟨i, List.getElem?_range hi, hj, ⟨⟨hout, hin⟩, hloop⟩, hcompatible⟩

/-- No embedding is lost when the host nodes are narrowed down. -/
lemma mem_candidates {f : Fin pattern.rows → Fin host.rows} (hf : Embeds host pattern compatible f)
    (hhost : host.rows = host.cols) (hpattern : pattern.rows = pattern.cols)
    (i : Fin pattern.rows) :
    ∃ js, (candidates host pattern compatible)[(i : Nat)]? = some js ∧ (f i : Nat) ∈ js := by
  have hout : (outDegrees pattern).getD i 0 ≤ (outDegrees host).getD (f i) 0 := by
    rw [getD_outDegrees _ i.isLt, getD_outDegrees _ (f i).isLt, ← hpattern, ← hhost]
    exact countP_range_le f hf.injective fun k hk => hf.edge i k hk
  have hin : (inDegrees pattern).getD i 0 ≤ (inDegrees host).getD (f i) 0 := by
    rw [getD_inDegrees _ (hpattern ▸ i.isLt), getD_inDegrees _ (hhost ▸ (f i).isLt)]
    exact countP_range_le f hf.injective fun k hk => hf.edge k i hk
  exact mem_candidates_iff.mpr ⟨i.isLt, (f i).isLt, hout, hin, hf.edge i i, hf.compatible i⟩

/-! ### Complete placements -/

/-- The host nodes of the pattern nodes, in order. -/
def images {p h : Nat} (f : Fin p → Fin h) : List Nat := List.ofFn fun i => (f i : Nat)

lemma images_injective {p h : Nat} : Function.Injective (images (p := p) (h := h)) := by
  intro f g hfg
  funext i
  exact Fin.ext (congrFun (List.ofFn_injective hfg) i)

lemma getElem?_images {p h : Nat} (f : Fin p → Fin h) {i j : Nat} :
    (images f)[i]? = some j ↔ ∃ k : Fin p, (k : Nat) = i ∧ (f k : Nat) = j := by
  unfold images
  rw [List.getElem?_ofFn]
  constructor
  · intro h
    split at h
    next hi => exact ⟨⟨i, hi⟩, rfl, Option.some.inj h⟩
    next => cases h
  · rintro ⟨k, rfl, rfl⟩
    simp

lemma fits_take_iff {l : List Nat} {i j : Nat} (hi : i ≤ l.length) :
    fits host pattern (l.take i) j = true ↔ ∀ k m, k < i → l[k]? = some m → m ≠ j ∧
      (pattern.get i k = true → host.get j m = true) ∧
      (pattern.get k i = true → host.get m j = true) := by
  have hlen : (l.take i).length = i := by simp [hi]
  have hget : ∀ k m, (l.take i)[k]? = some m ↔ k < i ∧ l[k]? = some m := by
    intro k m
    rw [List.getElem?_take]
    split <;> simp [*]
  rw [fits_iff, hlen, List.mem_iff_getElem?]
  simp only [hget]
  constructor
  · rintro ⟨hmem, hall⟩ k m hk hm
    refine ⟨?_, hall k m ⟨hk, hm⟩⟩
    rintro rfl
    exact hmem ⟨k, hk, hm⟩
  · intro h
    refine ⟨?_, fun k m hk => (h k m hk.1 hk.2).2⟩
    rintro ⟨k, hk, hm⟩
    exact (h k j hk hm).1 rfl

/-- A placement that the search completes is an embedding. -/
lemma exists_embeds_of_mem_placements {l : List Nat}
    (hl : l ∈ placements host pattern (candidates host pattern compatible) []) :
    ∃ f, Embeds host pattern compatible f ∧ images f = l := by
  obtain ⟨_, rfl, hlen, hplaced⟩ := mem_placements_iff.mp hl
  simp only [List.nil_append] at hplaced
  rw [length_candidates] at hlen
  have hcandidate : ∀ i j, l[i]? = some j → j < host.rows ∧
      (pattern.get i i = true → host.get j j = true) ∧ compatible i j = true := by
    intro i j hij
    obtain ⟨-, hj, -, -, hloop, hcompatible⟩ := mem_candidates_iff.mp (hplaced i j hij).1
    exact ⟨hj, hloop, hcompatible⟩
  have hfits : ∀ i j, l[i]? = some j → ∀ k m, k < i → l[k]? = some m → m ≠ j ∧
      (pattern.get i k = true → host.get j m = true) ∧
      (pattern.get k i = true → host.get m j = true) := by
    intro i j hij
    have hi : i < l.length := (List.getElem?_eq_some_iff.mp hij).1
    exact (fits_take_iff hi.le).mp (hplaced i j hij).2
  have hlt : ∀ i : Fin pattern.rows, (i : Nat) < l.length := fun i => by rw [hlen]; exact i.isLt
  let f : Fin pattern.rows → Fin host.rows :=
    fun i => ⟨l.get ⟨i, hlt i⟩, (hcandidate i _ (List.getElem?_eq_getElem (hlt i))).1⟩
  have hf : ∀ i : Fin pattern.rows, l[(i : Nat)]? = some (f i : Nat) :=
    fun i => List.getElem?_eq_getElem (hlt i)
  refine ⟨f, ⟨?_, ?_, fun i => (hcandidate i _ (hf i)).2.2⟩, ?_⟩
  · intro i k hik
    rcases Nat.lt_trichotomy i k with hlt | heq | hgt
    · exact absurd (congrArg Fin.val hik) (hfits k _ (hf k) i _ hlt (hf i)).1
    · exact Fin.ext heq
    · exact absurd (congrArg Fin.val hik.symm) (hfits i _ (hf i) k _ hgt (hf k)).1
  · intro i k hik
    rcases Nat.lt_trichotomy i k with hlt | heq | hgt
    · exact (hfits k _ (hf k) i _ hlt (hf i)).2.2 hik
    · obtain rfl : i = k := Fin.ext heq
      exact (hcandidate i _ (hf i)).2.1 hik
    · exact (hfits i _ (hf i) k _ hgt (hf k)).2.1 hik
  · apply List.ext_getElem
    · simp [images, hlen]
    · intro i _ _
      simp [images, f]

/-- The search completes every embedding. -/
lemma images_mem_placements {f : Fin pattern.rows → Fin host.rows}
    (hf : Embeds host pattern compatible f)
    (hhost : host.rows = host.cols) (hpattern : pattern.rows = pattern.cols) :
    images f ∈ placements host pattern (candidates host pattern compatible) [] := by
  have hlen : (images f).length = pattern.rows := by simp [images]
  refine mem_placements_iff.mpr ⟨images f, rfl, hlen.trans length_candidates.symm, ?_⟩
  intro i j hij
  obtain ⟨i, rfl, rfl⟩ := (getElem?_images f).mp hij
  refine ⟨mem_candidates hf hhost hpattern i, ?_⟩
  rw [List.nil_append, fits_take_iff (by rw [hlen]; exact i.isLt.le)]
  intro k m hk hm
  obtain ⟨k, rfl, rfl⟩ := (getElem?_images f).mp hm
  refine ⟨?_, hf.edge i k, hf.edge k i⟩
  intro heq
  have hki : k = i := hf.injective (Fin.ext heq)
  omega

lemma assignment_images (f : Fin pattern.rows → Fin host.rows) :
    assignment host pattern (images f) = .ofPlacing f := by
  unfold assignment BitMatrix.ofPlacing
  congr 1
  funext i j
  by_cases hi : i < pattern.rows
  · simp [images, hi]
  · simp [images, hi]

lemma lex_of_precedes {p h : Nat} {f g : Fin p → Fin h} (hfg : Precedes (images f) (images g)) :
    toLex f < toLex g := by
  obtain ⟨pre, j, j', r, r', hf, hg, hlt⟩ := hfg
  have hlen : pre.length < p := by
    have := congrArg List.length hf
    simp only [images, List.length_ofFn, List.length_append, List.length_cons] at this
    omega
  have hprefix : ∀ (q : Fin p → Fin h) (k : Nat) (s : List Nat), images q = pre ++ k :: s →
      (∀ i : Fin p, ∀ hi : (i : Nat) < pre.length, (q i : Nat) = pre[(i : Nat)]) ∧
      (q ⟨pre.length, hlen⟩ : Nat) = k := by
    intro q k s hq
    have hget : ∀ i : Fin p, (pre ++ k :: s)[(i : Nat)]? = some (q i : Nat) := by
      intro i
      rw [← hq, getElem?_images]
      exact ⟨i, rfl, rfl⟩
    constructor
    · intro i hi
      have := hget i
      rw [List.getElem?_append_left hi, List.getElem?_eq_getElem hi] at this
      exact (Option.some.inj this).symm
    · have := hget ⟨pre.length, hlen⟩
      simpa using this.symm
  obtain ⟨hfpre, hfj⟩ := hprefix f j r hf
  obtain ⟨hgpre, hgj⟩ := hprefix g j' r' hg
  refine ⟨⟨pre.length, hlen⟩, ?_, ?_⟩
  · intro i hi
    apply Fin.ext
    exact (hfpre i hi).trans (hgpre i hi).symm
  · change f ⟨pre.length, hlen⟩ < g ⟨pre.length, hlen⟩
    rw [Fin.lt_def, hfj, hgj]
    exact hlt

lemma not_embeds_of_plan? {f : Fin pattern.rows → Fin host.rows}
    (hplan : plan? host pattern compatible = none)
    (hhost : host.rows = host.cols) (hpattern : pattern.rows = pattern.cols) :
    ¬Embeds host pattern compatible f := by
  intro hf
  unfold plan? at hplan
  split at hplan
  next hlt =>
    have := Fintype.card_le_of_injective f hf.injective
    simp only [Fintype.card_fin] at this
    omega
  next =>
    dsimp only at hplan
    split at hplan
    next hany =>
      obtain ⟨js, hjs, hempty⟩ := List.any_eq_true.mp hany
      obtain ⟨i, hi⟩ := List.mem_iff_getElem?.mp hjs
      have hip : i < pattern.rows := by
        rw [← @length_candidates host pattern compatible]
        exact (List.getElem?_eq_some_iff.mp hi).1
      obtain ⟨js', hjs', hmem⟩ := mem_candidates hf hhost hpattern ⟨i, hip⟩
      obtain rfl : js = js' := Option.some.inj (hi.symm.trans hjs')
      rw [List.isEmpty_iff] at hempty
      simp [hempty] at hmem
    next => cases hplan

lemma eq_candidates_of_plan? {choices : List (List Nat)}
    (hplan : plan? host pattern compatible = some choices) :
    choices = candidates host pattern compatible := by
  unfold plan? at hplan
  split at hplan
  · cases hplan
  · dsimp only at hplan
    split at hplan
    · cases hplan
    · exact (Option.some.inj hplan).symm

/-- The listed assignments are those of the embeddings, in lexicographic order. -/
theorem exists_embeddings_eq (hhost : host.rows = host.cols)
    (hpattern : pattern.rows = pattern.cols) (compatible : Nat → Nat → Bool) :
    ∃ fs : List (Fin pattern.rows → Fin host.rows),
      (∀ f, f ∈ fs ↔ Embeds host pattern compatible f) ∧
      fs.Pairwise (fun f g => toLex f < toLex g) ∧
      Strategy.backtracking.embeddings host pattern compatible =
        fs.map BitMatrix.ofPlacing := by
  unfold Strategy.backtracking
  simp only
  cases hplan : plan? host pattern compatible with
  | none =>
    refine ⟨[], fun f => ?_, List.Pairwise.nil, rfl⟩
    simp [not_embeds_of_plan? hplan hhost hpattern]
  | some choices =>
    obtain rfl := eq_candidates_of_plan? hplan
    let found := placements host pattern (candidates host pattern compatible) []
    have hrange : found ∈ Set.range (List.map (images (p := pattern.rows) (h := host.rows))) := by
      rw [Set.range_list_map]
      intro l hl
      obtain ⟨f, -, hf⟩ := exists_embeds_of_mem_placements hl
      exact ⟨f, hf⟩
    obtain ⟨fs, hfs⟩ := hrange
    refine ⟨fs, fun f => ?_, ?_, ?_⟩
    · have hmem : f ∈ fs ↔ images f ∈ found := by
        rw [← hfs, List.mem_map_of_injective images_injective]
      rw [hmem]
      constructor
      · intro hf
        obtain ⟨g, hg, hgf⟩ := exists_embeds_of_mem_placements hf
        exact images_injective hgf ▸ hg
      · intro hf
        exact images_mem_placements hf hhost hpattern
    · have hsorted : found.Pairwise Precedes :=
        placements_pairwise (fun js hjs => pairwise_of_mem_candidates hjs) []
      rw [← hfs, List.pairwise_map] at hsorted
      exact hsorted.imp lex_of_precedes
    · change found.map (assignment host pattern) = _
      rw [← hfs, List.map_map]
      exact List.map_congr_left fun f _ => assignment_images f

end Backtracking

theorem Strategy.backtracking_sound : Strategy.backtracking.Sound := by
  intro host pattern compatible hhost hpattern m hm
  obtain ⟨fs, hfs, -, hlist⟩ := Backtracking.exists_embeddings_eq hhost hpattern compatible
  rw [hlist] at hm
  obtain ⟨f, hf, rfl⟩ := List.mem_map.mp hm
  have hembeds := (hfs f).mp hf
  exact ⟨f, ⟨hembeds.injective, hembeds.edge, fun _ => rfl⟩, BitMatrix.ones_ofPlacing f⟩

/-! ### What a visitor is shown -/

universe u v

variable {α : Type u} {σ : Type v}

/-- Does what `visit` does, and keeps a list of what it is shown. -/
def logged (visit : α → σ → ForInStep σ) (a : α) (s : List α × σ) : ForInStep (List α × σ) :=
  match visit a s.2 with
  | .done t => .done (s.1 ++ [a], t)
  | .yield t => .yield (s.1 ++ [a], t)

/-- The assignments that the visitor is shown in a search that begins with state `s`. -/
def Strategy.shown {σ : Type} (S : Strategy) (host pattern : BitMatrix)
    (compatible : Nat → Nat → Bool) (visit : BitMatrix → σ → ForInStep σ) (s : σ) :
    List BitMatrix :=
  (S.search host pattern compatible (logged visit) ([], s)).value.1

lemma visitEach_logged (visit : α → σ → ForInStep σ) (l seen : List α) (s : σ) :
    (visitEach (logged visit) l (seen, s)).value.1 = seen ++ visited visit l s := by
  induction l generalizing seen s with
  | nil => simp [visited, ForInStep.value]
  | cons a l ih =>
    unfold visitEach visited
    cases hvisit : visit a s with
    | done t => simp [logged, hvisit, ForInStep.value]
    | yield t =>
      have hlogged : logged visit a (seen, s) = .yield (seen ++ [a], t) := by simp [logged, hvisit]
      rw [hlogged]
      simpa using ih (seen ++ [a]) t

lemma visited_of_yield {visit : α → σ → ForInStep σ} (hvisit : ∀ a s, ∃ t, visit a s = .yield t)
    (l : List α) (s : σ) : visited visit l s = l := by
  induction l generalizing s with
  | nil => rfl
  | cons a l ih =>
    obtain ⟨t, ht⟩ := hvisit a s
    unfold visited
    rw [ht]
    exact congrArg (a :: ·) (ih t)

lemma Strategy.shown_eq {σ : Type} (S : Strategy) (host pattern : BitMatrix)
    (compatible : Nat → Nat → Bool) (visit : BitMatrix → σ → ForInStep σ) (s : σ) :
    S.shown host pattern compatible visit s =
      visited visit (S.embeddings host pattern compatible) s := by
  unfold Strategy.shown
  rw [S.search_eq, visitEach_logged, List.nil_append]

/-- The backtracking search of a square host for a square pattern shows a visitor that never stops
the assignments of all embeddings, each once and in lexicographic order, and any visitor those up to
the first at which it stops. -/
theorem backtracking_shows_embeddings (host pattern : BitMatrix) (compatible : Nat → Nat → Bool)
    (hhost : host.rows = host.cols) (hpattern : pattern.rows = pattern.cols) :
    ∃ fs : List (Fin pattern.rows → Fin host.rows),
      (∀ f, f ∈ fs ↔ Embeds host pattern compatible f) ∧
      fs.Pairwise (fun f g => toLex f < toLex g) ∧
      (∀ f ∈ fs, (BitMatrix.ofPlacing f).rows = pattern.rows ∧
        (BitMatrix.ofPlacing f).cols = host.rows ∧
        (BitMatrix.ofPlacing f).ones = placedPairs f) ∧
      (∀ {σ : Type} (visit : BitMatrix → σ → ForInStep σ) (s : σ),
        (∀ m t, ∃ t', visit m t = .yield t') →
        Strategy.backtracking.shown host pattern compatible visit s =
          fs.map BitMatrix.ofPlacing) ∧
      ∀ {σ : Type} (visit : BitMatrix → σ → ForInStep σ) (s : σ),
        Strategy.backtracking.shown host pattern compatible visit s =
          visited visit (fs.map BitMatrix.ofPlacing) s := by
  obtain ⟨fs, hmem, hlex, hlist⟩ := Backtracking.exists_embeddings_eq hhost hpattern compatible
  refine ⟨fs, hmem, hlex, fun f _ => ⟨rfl, rfl, BitMatrix.ones_ofPlacing f⟩, ?_, ?_⟩
  · intro σ visit s hvisit
    rw [Strategy.shown_eq, hlist, visited_of_yield hvisit]
  · intro σ visit s
    rw [Strategy.shown_eq, hlist]

/-- An edge in a path of three nodes: it is placed on the first edge and then on the second. -/
theorem backtracking_shows_embeddings_path :
    let host : BitMatrix := ⟨3, 3, #[false, true, false, false, false, true, false, false, false]⟩
    let pattern : BitMatrix := ⟨2, 2, #[false, true, false, false]⟩
    host.rows = host.cols ∧ pattern.rows = pattern.cols ∧
      ∃ fs : List (Fin pattern.rows → Fin host.rows),
        (∀ f, f ∈ fs ↔ Embeds host pattern (fun _ _ => true) f) ∧
        fs.map BitMatrix.ofPlacing = [⟨2, 3, #[true, false, false, false, true, false]⟩,
          ⟨2, 3, #[false, true, false, false, false, true]⟩] := by
  intro host pattern
  obtain ⟨fs, hmem, -, -, hall, -⟩ :=
    backtracking_shows_embeddings host pattern (fun _ _ => true) rfl rfl
  refine ⟨rfl, rfl, fs, hmem, ?_⟩
  rw [← hall (fun _ s => .yield s) () fun _ t => ⟨t, rfl⟩]
  decide +kernel

end TripleGrammar
