import TripleGrammar.BitMatrix.Basic

/-!
# Lemmas about bit matrices

A matrix is seen through its bounds and `BitMatrix.get`. Every operation is described by the bounds
of its result and by what `get` reads from it.
-/

namespace TripleGrammar.BitMatrix

variable {m : BitMatrix} {rows cols r c r' c' : Nat} {b : Bool} {f : Nat → Nat → Bool}

/-! ### Bounds -/

@[simp] theorem rows_ofFn : (ofFn rows cols f).rows = rows := rfl

@[simp] theorem cols_ofFn : (ofFn rows cols f).cols = cols := rfl

@[simp] theorem rows_zero : (zero rows cols).rows = rows := rfl

@[simp] theorem cols_zero : (zero rows cols).cols = cols := rfl

@[simp] theorem rows_set : (m.set r c b).rows = m.rows := by
  rw [set]; split <;> rfl

@[simp] theorem cols_set : (m.set r c b).cols = m.cols := by
  rw [set]; split <;> rfl

@[simp] theorem rows_grow : m.grow.rows = m.rows + 1 := rfl

@[simp] theorem cols_grow : m.grow.cols = m.cols + 1 := rfl

@[simp] theorem rows_transpose : m.transpose.rows = m.cols := rfl

@[simp] theorem cols_transpose : m.transpose.cols = m.rows := rfl

/-! ### Cells -/

theorem index_lt (hr : r < rows) (hc : c < cols) : r * cols + c < rows * cols :=
  calc r * cols + c < r * cols + cols := by omega
    _ = (r + 1) * cols := by rw [Nat.add_mul, Nat.one_mul]
    _ ≤ rows * cols := Nat.mul_le_mul_right cols hr

/-- Cells of different rows or columns are stored at different places. -/
theorem index_inj (hc : c < cols) (hc' : c' < cols) :
    r * cols + c = r' * cols + c' ↔ r = r' ∧ c = c' := by
  constructor
  · intro h
    have hrow : (r * cols + c) / cols = (r' * cols + c') / cols := by rw [h]
    have hcol : (r * cols + c) % cols = (r' * cols + c') % cols := by rw [h]
    rw [Nat.mul_comm r, Nat.mul_comm r', Nat.mul_add_div (by omega), Nat.mul_add_div (by omega),
      Nat.div_eq_of_lt hc, Nat.div_eq_of_lt hc'] at hrow
    rw [Nat.mul_comm r, Nat.mul_comm r', Nat.mul_add_mod, Nat.mul_add_mod, Nat.mod_eq_of_lt hc,
      Nat.mod_eq_of_lt hc'] at hcol
    exact ⟨by omega, hcol⟩
  · rintro ⟨rfl, rfl⟩
    rfl

theorem wellFormed_ofFn : (ofFn rows cols f).WellFormed := by
  simp [WellFormed, ofFn]

theorem wellFormed_zero : (zero rows cols).WellFormed := by
  simp [WellFormed, zero]

theorem WellFormed.set (h : m.WellFormed) : (m.set r c b).WellFormed := by
  simp only [WellFormed, rows_set, cols_set, ← show m.cells.size = _ from h]
  rw [BitMatrix.set]
  split <;> simp

theorem wellFormed_grow : m.grow.WellFormed := wellFormed_ofFn

theorem wellFormed_transpose : m.transpose.WellFormed := wellFormed_ofFn

/-! ### Reading -/

theorem get_eq_false_of_rows_le (h : m.rows ≤ r) : m.get r c = false := by
  simp [get, Nat.not_lt.2 h]

theorem get_eq_false_of_cols_le (h : m.cols ≤ c) : m.get r c = false := by
  simp [get, Nat.not_lt.2 h]

theorem lt_of_get (h : m.get r c = true) : r < m.rows ∧ c < m.cols := by
  simp only [get, Bool.and_eq_true, decide_eq_true_eq] at h
  exact h.1

theorem get_eq_getD_get? : m.get r c = (m.get? r c).getD false := by
  by_cases h : r < m.rows ∧ c < m.cols
  · simp [get, get?, h]
  · have hin : (decide (r < m.rows) && decide (c < m.cols)) = false := by simpa using h
    rw [get, get?, if_neg h, hin, Bool.false_and]
    rfl

theorem get_ofFn :
    (ofFn rows cols f).get r c = (decide (r < rows) && decide (c < cols) && f r c) := by
  by_cases h : r < rows ∧ c < cols
  · obtain ⟨hr, hc⟩ := h
    have hlt := index_lt hr hc
    have hrow : (r * cols + c) / cols = r := by
      rw [Nat.mul_comm, Nat.mul_add_div (by omega), Nat.div_eq_of_lt hc, Nat.add_zero]
    have hcol : (r * cols + c) % cols = c := by
      rw [Nat.mul_comm, Nat.mul_add_mod, Nat.mod_eq_of_lt hc]
    simp [get, ofFn, hr, hc, hlt, hrow, hcol]
  · have hin : (decide (r < rows) && decide (c < cols)) = false := by simpa using h
    change (decide (r < rows) && decide (c < cols) && _) = (_ && f r c)
    rw [hin, Bool.false_and, Bool.false_and]

/-- Every reading finds its cell. -/
theorem get?_eq_some (h : m.WellFormed) (r c : Nat) : m.get? r c = some (m.get r c) := by
  by_cases hin : r < m.rows ∧ c < m.cols
  · have hlt : r * m.cols + c < m.cells.size := h ▸ index_lt hin.1 hin.2
    rw [get_eq_getD_get?, get?, if_pos hin, Array.getElem?_eq_getElem hlt, Option.getD_some]
  · rw [get_eq_getD_get?, get?, if_neg hin, Option.getD_some]

/-- A matrix with the right number of cells is known from its size and its bits. -/
theorem ext_get {m m' : BitMatrix} (h : m.WellFormed) (h' : m'.WellFormed)
    (hrows : m.rows = m'.rows) (hcols : m.cols = m'.cols)
    (hget : ∀ r c, m.get r c = m'.get r c) : m = m' := by
  obtain ⟨rows, cols, cells⟩ := m
  obtain ⟨rows', cols', cells'⟩ := m'
  obtain rfl : rows = rows' := hrows
  obtain rfl : cols = cols' := hcols
  have hsize : cells.size = rows * cols := h
  have hsize' : cells'.size = rows * cols := h'
  congr 1
  apply Array.ext (hsize.trans hsize'.symm)
  intro i hi hi'
  have hlt : i < cols * rows := by rwa [Nat.mul_comm, ← hsize]
  have hpos : 0 < cols := Nat.pos_of_mul_pos_right (Nat.zero_lt_of_lt hlt)
  have hcell := hget (i / cols) (i % cols)
  unfold get at hcell
  have hrow : i / cols < rows := Nat.div_lt_of_lt_mul hlt
  have hcol : i % cols < cols := Nat.mod_lt i hpos
  have hi₀ : i / cols * cols + i % cols = i := by rw [Nat.mul_comm, Nat.div_add_mod]
  simpa [hrow, hcol, hi₀, hi, hi'] using hcell

@[simp] theorem get_zero : (zero rows cols).get r c = false := by
  simp only [get, zero, Array.getD_eq_getD_getElem?, Array.getElem?_replicate]
  split <;> simp

@[simp] theorem get_square {n : Nat} : (square n).get r c = false := get_zero

theorem get_set (h : m.WellFormed) (hr : r < m.rows) (hc : c < m.cols) :
    (m.set r c b).get r' c' = if r' = r ∧ c' = c then b else m.get r' c' := by
  by_cases hin : r' < m.rows ∧ c' < m.cols
  · obtain ⟨hr', hc'⟩ := hin
    have hlt : r * m.cols + c < m.cells.size := h ▸ index_lt hr hc
    have hlt' : r' * m.cols + c' < m.cells.size := h ▸ index_lt hr' hc'
    have hsame : r' * m.cols + c' = r * m.cols + c ↔ r' = r ∧ c' = c := index_inj hc' hc
    simp only [get, set, if_pos (And.intro hr hc), hr', hc', decide_true, Bool.true_and,
      Array.getD_eq_getD_getElem?, Array.getElem?_setIfInBounds, ← hsame]
    by_cases he : r' * m.cols + c' = r * m.cols + c
    · simp [he, hlt]
    · simp [he, Ne.symm he]
  · -- both sides read outside the matrix, and the written cell is inside
    have hne : ¬(r' = r ∧ c' = c) := by
      rintro ⟨rfl, rfl⟩
      exact hin ⟨hr, hc⟩
    rw [if_neg hne]
    by_cases hr' : r' < m.rows
    · have hc' : m.cols ≤ c' := by omega
      rw [get_eq_false_of_cols_le hc', get_eq_false_of_cols_le (by simpa using hc')]
    · have hr'' : m.rows ≤ r' := by omega
      rw [get_eq_false_of_rows_le hr'', get_eq_false_of_rows_le (by simpa using hr'')]

@[simp] theorem get_grow : m.grow.get r c = m.get r c := by
  rw [grow, get_ofFn]
  by_cases h : m.get r c = true
  · obtain ⟨hr, hc⟩ := lt_of_get h
    simp [h, Nat.lt_succ_of_lt hr, Nat.lt_succ_of_lt hc]
  · simp [h]

@[simp] theorem get_transpose : m.transpose.get r c = m.get c r := by
  rw [transpose, get_ofFn]
  by_cases h : m.get c r = true
  · obtain ⟨hc, hr⟩ := lt_of_get h
    simp [h, hc, hr]
  · simp [h]

theorem transpose_transpose (h : m.WellFormed) : m.transpose.transpose = m :=
  ext_get wellFormed_transpose h rfl rfl fun r c => by rw [get_transpose, get_transpose]

/-! ### Lists of set bits -/

@[simp] theorem mem_rowOnes : c ∈ m.rowOnes r ↔ m.get r c = true := by
  simp only [rowOnes, List.mem_filter, List.mem_range, and_iff_right_iff_imp]
  exact fun h => (lt_of_get h).2

@[simp] theorem mem_ones : (r, c) ∈ m.ones ↔ m.get r c = true := by
  simp only [ones, List.mem_flatMap, List.mem_map, List.mem_range, mem_rowOnes, Prod.mk.injEq]
  constructor
  · rintro ⟨r', -, c', hget, rfl, rfl⟩
    exact hget
  · intro h
    exact ⟨r, (lt_of_get h).1, c, h, rfl, rfl⟩

/-- The set bits are listed row by row, and from left to right in each row. -/
theorem pairwise_ones : m.ones.Pairwise fun p q => p.1 < q.1 ∨ p.1 = q.1 ∧ p.2 < q.2 := by
  unfold ones
  rw [List.pairwise_flatMap]
  refine ⟨fun r _ => ?_, ?_⟩
  · rw [List.pairwise_map]
    apply (List.pairwise_lt_range.filter _).imp
    intro c c' hlt
    exact Or.inr ⟨rfl, hlt⟩
  · apply List.pairwise_lt_range.imp
    intro r r' hlt p hp q hq
    obtain ⟨c, -, rfl⟩ := List.mem_map.1 hp
    obtain ⟨c', -, rfl⟩ := List.mem_map.1 hq
    exact Or.inl hlt

theorem nodup_ones : m.ones.Nodup := by
  apply pairwise_ones.imp
  rintro p q h rfl
  omega

/-! ### Counting -/

theorem range_mul (rows cols : Nat) : List.range (rows * cols) =
    (List.range rows).flatMap fun r => (List.range cols).map (r * cols + ·) := by
  induction rows with
  | zero => simp
  | succ r ih =>
    rw [Nat.add_mul, Nat.one_mul, List.range_add, ih, List.range_succ, List.flatMap_append]
    simp

theorem count_eq_countP_range (l : List Bool) :
    l.count true = (List.range l.length).countP fun k => l.getD k false := by
  have hl : (List.range l.length).map (fun k => l.getD k false) = l := by
    apply List.ext_getElem
    · simp
    · intro k _ hk
      simp [hk]
  calc l.count true
    _ = ((List.range l.length).map fun k => l.getD k false).count true := by rw [hl]
    _ = _ := by simp [List.count_eq_countP, List.countP_map, Function.comp_def]

theorem count_eq_length_ones (h : m.WellFormed) : m.count = m.ones.length := by
  have hrow : ∀ r ∈ List.range m.rows,
      ((List.range m.cols).map (r * m.cols + ·)).countP (fun k => m.cells.toList.getD k false) =
        ((m.rowOnes r).map fun c => (r, c)).length := by
    intro r hr
    rw [List.countP_map, List.length_map, rowOnes, ← List.countP_eq_length_filter]
    apply List.countP_congr
    intro c hc
    simp [get, List.mem_range.1 hr, List.mem_range.1 hc]
  have hsize : m.cells.toList.length = m.rows * m.cols := h
  rw [count, ← Array.count_toList, count_eq_countP_range, hsize, range_mul, List.countP_flatMap,
    ones, List.length_flatMap]
  exact congrArg List.sum (List.map_congr_left hrow)

end TripleGrammar.BitMatrix
