import TripleGrammar.BitMatrix.Lemmas
import TripleGrammar.Embedding.Strategy
import Mathlib.Logic.Function.Basic
import Mathlib.Data.List.Nodup

/-!
# Embeddings of a pattern in a host

What it means to place the nodes of a pattern on those of a host, said of functions between the
positions, and the assignment that stands for such a function. A strategy is sound if it shows
nothing but embeddings.
-/

namespace TripleGrammar

/-- The pairs of a pattern node and the host node on which `f` places it. -/
def placedPairs {p h : Nat} (f : Fin p → Fin h) : List (Nat × Nat) :=
  (List.finRange p).map fun i : Fin p => ((i : Nat), (f i : Nat))

/-- `f` places different pattern nodes on different host nodes, edges on edges, and each node on one
that is compatible with it. -/
structure Embeds (host pattern : BitMatrix) (compatible : Nat → Nat → Bool)
    (f : Fin pattern.rows → Fin host.rows) : Prop where
  injective : Function.Injective f
  edge : ∀ i k : Fin pattern.rows, pattern.get i k = true → host.get (f i) (f k) = true
  compatible : ∀ i : Fin pattern.rows, compatible i (f i) = true

namespace BitMatrix

/-- The assignment that places pattern node `i` on host node `f i`. -/
def ofPlacing {p h : Nat} (f : Fin p → Fin h) : BitMatrix :=
  .ofFn p h fun i j => if hi : i < p then (f ⟨i, hi⟩ : Nat) == j else false

variable {p h : Nat} (f : Fin p → Fin h)

lemma get_ofPlacing (i : Fin p) (j : Nat) :
    (ofPlacing f).get i j = true ↔ j = f i := by
  unfold ofPlacing
  rw [get_ofFn]
  simp only [i.isLt, decide_true, Bool.true_and, dite_true, Fin.eta, Bool.and_eq_true,
    decide_eq_true_eq, beq_iff_eq]
  constructor
  · intro hj
    exact hj.2.symm
  · rintro rfl
    exact ⟨(f i).isLt, rfl⟩

lemma rowOnes_ofPlacing (i : Fin p) : (ofPlacing f).rowOnes i = [(f i : Nat)] := by
  have hrow : (ofPlacing f).get i = fun j => decide (j = (f i : Nat)) := by
    funext j
    rw [Bool.eq_iff_iff, get_ofPlacing, decide_eq_true_iff]
  have hcols : (ofPlacing f).cols = h := rfl
  unfold rowOnes
  rw [hrow, hcols, List.filter_eq, List.count_eq_one_of_mem List.nodup_range
    (List.mem_range.mpr (f i).isLt)]
  rfl

lemma ones_ofPlacing : (ofPlacing f).ones = placedPairs f := by
  have hrows : (ofPlacing f).rows = p := rfl
  have hrange : List.range p = (List.finRange p).map Fin.val :=
    List.ext_getElem (by simp) (by simp)
  unfold ones placedPairs
  rw [hrows, hrange, List.flatMap_map, List.map_eq_flatMap]
  simp only [rowOnes_ofPlacing, List.map_cons, List.map_nil]

end BitMatrix

/-- Every assignment that the strategy shows places all nodes of the pattern, each on another host
node and edges on edges. -/
def Strategy.Sound (S : Strategy) : Prop :=
  ∀ host pattern compatible, host.rows = host.cols → pattern.rows = pattern.cols →
    ∀ m ∈ S.embeddings host pattern compatible, ∃ f : Fin pattern.rows → Fin host.rows,
      Embeds host pattern (fun _ _ => true) f ∧ m.ones = placedPairs f

end TripleGrammar
