import TripleGrammar.BitMatrix.Sizes
import Mathlib.Data.List.Basic

/-!
# The matrices that can be built

Every matrix comes from one without set bits by writing bits, growing and transposing, as far as
there is room. It has one cell for each place within its bounds, and although every change of the
width moves the cells, what is read at a place is what was written there last.
-/

namespace TripleGrammar.BitMatrix

variable {m : BitMatrix} {rows cols r c : Nat} {b : Bool} {f : Nat → Nat → Bool}

/-! ### Cells row by row -/

/-- The cells of row `r`, as they lie in the matrix. -/
def row (m : BitMatrix) (r : Nat) : List Bool := (m.cells.toList.drop (r * m.cols)).take m.cols

lemma write_eq_ok (hr : r < m.rows) (hc : c < m.cols) : m.write r c b = .ok (m.set r c b) :=
  if_pos ⟨hr, hc⟩

/-- Writing the same bit at several places sets it there and nowhere else. -/
lemma foldlM_write (h : m.WellFormed) (ps : List (Nat × Nat))
    (hps : ∀ p ∈ ps, p.1 < m.cols ∧ p.2 < m.rows) :
    ∃ m', ps.foldlM (fun t p => t.write p.2 p.1 true) m = .ok m' ∧ m'.WellFormed ∧
      m'.rows = m.rows ∧ m'.cols = m.cols ∧
      ∀ r c, m'.get r c = (m.get r c || ps.contains (c, r)) := by
  induction ps generalizing m with
  | nil => exact ⟨m, rfl, h, rfl, rfl, fun r c => by simp⟩
  | cons p ps ih =>
    obtain ⟨⟨hcol, hrow⟩, hrest⟩ := List.forall_mem_cons.mp hps
    obtain ⟨m', hfold, hwf, hrows, hcols, hget⟩ :=
      ih (m := m.set p.2 p.1 true) h.set (by simpa using hrest)
    refine ⟨m', ?_, hwf, by simpa using hrows, by simpa using hcols, fun r c => ?_⟩
    · rw [List.foldlM_cons, write_eq_ok hrow hcol]
      exact hfold
    · rw [hget, get_set h hrow hcol]
      by_cases hp : r = p.2 ∧ c = p.1
      · simp [hp]
      · have hne : (c, r) ≠ p := fun heq => hp ⟨congrArg Prod.snd heq, congrArg Prod.fst heq⟩
        simp [hp, hne]

/-- Transposing writes each set bit at the place with row and column exchanged. -/
lemma foldlM_write_ones (m : BitMatrix) :
    m.ones.foldlM (fun t p => t.write p.2 p.1 true) (zero m.cols m.rows) = .ok m.transpose := by
  have hzero : (zero m.cols m.rows).WellFormed := wellFormed_zero
  obtain ⟨t, hfold, hwf, hrows, hcols, hget⟩ :=
    foldlM_write hzero m.ones fun p hp => lt_of_get (mem_ones.mp hp)
  rw [hfold, ext_get hwf wellFormed_transpose hrows hcols fun r c => ?_]
  rw [hget, get_zero, get_transpose, Bool.false_or, Bool.eq_iff_iff, List.contains_iff_mem, mem_ones]

/-! ### Sequences of changes -/

/-- The matrices that can be built: without set bits at first, and then changed step by step. No
step can be taken for which there is no room, and a bit can only be written at a place within the
bounds. -/
inductive Built : BitMatrix → Prop where
  | allocated {rows cols : UInt64} {m : BitMatrix} (hnew : allocate rows cols = .ok m) : Built m
  | squareAllocated {n : UInt64} {m : BitMatrix} (hnew : allocateSquare n = .ok m) : Built m
  | written {m m' : BitMatrix} {r c : Nat} {b : Bool} (h : Built m)
      (hwrite : m.write r c b = .ok m') : Built m'
  | extended {m m' : BitMatrix} (h : Built m) (hextend : m.extend = .ok m') : Built m'
  | transposed {m m' : BitMatrix} (h : Built m) (hcopy : m.copyTransposed = .ok m') : Built m'

/-- There is one cell for each place, and there is room for the cells. -/
structure Storable (m : BitMatrix) : Prop where
  wellFormed : m.WellFormed
  room : HasRoom m.rows m.cols

namespace Storable

lemma allocate {rows cols : UInt64} (hnew : allocate rows cols = .ok m) : m.Storable := by
  obtain ⟨hcells, rfl⟩ := allocate_eq_ok_iff.mp hnew
  exact ⟨wellFormed_zero, rows.toNat_lt, cols.toNat_lt, hcells⟩

lemma write {m' : BitMatrix} (h : m.Storable) (hwrite : m.write r c b = .ok m') :
    m'.Storable := by
  unfold BitMatrix.write at hwrite
  split at hwrite
  · obtain rfl := Except.ok.inj hwrite
    refine ⟨h.wellFormed.set, ?_⟩
    rw [rows_set, cols_set]
    exact h.room
  · cases hwrite

lemma extend {m' : BitMatrix} (hextend : m.extend = .ok m') : m'.Storable := by
  obtain ⟨hcells, rfl⟩ := extend_eq_ok_iff.mp hextend
  exact ⟨wellFormed_grow, hasRoom_succ_iff.mpr hcells⟩

lemma copyTransposed {m' : BitMatrix} (hcopy : m.copyTransposed = .ok m') : m'.Storable := by
  obtain ⟨hroom, rfl⟩ := copyTransposed_eq_ok_iff.mp hcopy
  exact ⟨wellFormed_transpose, hroom⟩

lemma copyTransposed_eq (h : m.Storable) : m.copyTransposed = .ok m.transpose :=
  copyTransposed_eq_ok_iff.mpr ⟨h.room.swap, rfl⟩

end Storable

lemma Built.storable (h : m.Built) : m.Storable := by
  induction h with
  | allocated hnew => exact .allocate hnew
  | squareAllocated hnew => exact .allocate hnew
  | written _ hwrite ih => exact ih.write hwrite
  | extended _ hextend _ => exact .extend hextend
  | transposed _ hcopy _ => exact .copyTransposed hcopy

lemma Built.foldlM {m' : BitMatrix} {ps : List (Nat × Nat)} (h : m.Built)
    (hfold : ps.foldlM (fun t p => t.write p.2 p.1 true) m = .ok m') : m'.Built := by
  induction ps generalizing m with
  | nil => exact Except.ok.inj hfold ▸ h
  | cons p ps ih =>
    rw [List.foldlM_cons] at hfold
    cases hwrite : m.write p.2 p.1 true with
    | ok t =>
      rw [hwrite] at hfold
      exact ih (h.written hwrite) hfold
    | error err =>
      rw [hwrite] at hfold
      cases hfold

lemma HasRoom.built_zero (h : HasRoom rows cols) : (zero rows cols).Built := by
  have hrows := UInt64.toNat_ofNat_of_lt' h.rows_lt
  have hcols := UInt64.toNat_ofNat_of_lt' h.cols_lt
  have hnew : allocate (.ofNat rows) (.ofNat cols) = .ok (zero rows cols) := by
    rw [allocate_eq_ok_iff, hrows, hcols]
    exact ⟨h.cells_le, rfl⟩
  exact .allocated hnew

/-- A matrix can be built if there is one cell for each place and room for the cells, whatever its
bits are. -/
theorem built_iff_storable : m.Built ↔ m.Storable := by
  refine ⟨Built.storable, fun h => ?_⟩
  have hcopy : m.transpose.Built := h.room.swap.built_zero.foldlM (foldlM_write_ones m)
  have hback := hcopy.storable.copyTransposed_eq
  rw [transpose_transpose h.wellFormed] at hback
  exact hcopy.transposed hback

end TripleGrammar.BitMatrix
