import TripleGrammar.Proofs.BuiltMatrices
import TripleGrammar.Proofs.CanonicalTexts

/-!
# Matrices that are read from texts

A text gives the bounds and the cells of a matrix one beside the other, and it is read whatever the
number of cells is. So a matrix from a text may be one that no sequence of changes leads to: cells
may be missing, and then some reading finds none, or there may be cells beyond those of all places,
whose bits are counted but never listed.
-/

namespace TripleGrammar.BitMatrix

variable {m m' : BitMatrix} {s : String}

/-- The cells after those of all places. -/
def surplus (m : BitMatrix) : List Bool := m.cells.toList.drop (m.rows * m.cols)

/-- Every reading finds its cell exactly if there are as many cells as places. -/
lemma isSome_get?_iff :
    (∀ r c, (m.get? r c).isSome = true) ↔ m.rows * m.cols ≤ m.cells.size := by
  constructor
  · intro hreads
    by_contra hsize
    have hlt : m.cells.size < m.cols * m.rows := by
      rw [Nat.mul_comm]
      omega
    have hcols : 0 < m.cols := Nat.pos_of_mul_pos_right (Nat.zero_lt_of_lt hlt)
    -- the place after the last cell
    have hread := hreads (m.cells.size / m.cols) (m.cells.size % m.cols)
    rw [get?, if_pos ⟨Nat.div_lt_of_lt_mul hlt, Nat.mod_lt _ hcols⟩, Nat.mul_comm,
      Nat.div_add_mod, Array.getElem?_eq_none (Nat.le_refl _)] at hread
    cases hread
  · intro hsize r c
    unfold get?
    split
    next hin =>
      have hplace := index_lt hin.1 hin.2
      rw [Array.getElem?_eq_getElem (by omega)]
      rfl
    next => rfl

lemma ones_congr (hrows : m.rows = m'.rows) (hcols : m.cols = m'.cols)
    (hget : ∀ r c, m.get r c = m'.get r c) : m.ones = m'.ones := by
  have hrow : m.rowOnes = m'.rowOnes := by
    funext r
    unfold rowOnes
    rw [hcols, funext (hget r)]
  unfold ones
  rw [hrows, hrow]

/-- The bits that are counted are the ones that are listed and those in surplus cells. -/
lemma count_eq (h : m.rows * m.cols ≤ m.cells.size) :
    m.count = m.ones.length + m.surplus.count true := by
  let trimmed : BitMatrix := { m with cells := (m.cells.toList.take (m.rows * m.cols)).toArray }
  have htrimmed : trimmed.WellFormed := by
    simp [trimmed, WellFormed, Nat.min_eq_left h]
  have hones : trimmed.ones = m.ones := by
    refine ones_congr rfl rfl fun r c => ?_
    by_cases hin : r < m.rows ∧ c < m.cols
    · have hplace := index_lt hin.1 hin.2
      simp [trimmed, get, hin, hplace]
    · have hout : (decide (r < m.rows) && decide (c < m.cols)) = false := by simpa using hin
      simp only [trimmed, get, hout, Bool.false_and]
  calc m.count
    _ = (m.cells.toList.take (m.rows * m.cols)).count true + m.surplus.count true := by
      rw [count, ← Array.count_toList, surplus, ← List.count_append, List.take_append_drop]
    _ = trimmed.count + m.surplus.count true := by
      rw [count, List.count_toArray]
    _ = m.ones.length + m.surplus.count true := by
      rw [count_eq_length_ones htrimmed, hones]

lemma exists_readText? (hrows : m.rows < UInt64.size) (hcols : m.cols < UInt64.size)
    (cells : Array Bool) : ∃ s, readText? s = some { m with cells } :=
  ⟨_, readText?_canonicalText_iff.mpr ⟨hrows, hcols⟩⟩

lemma lt_size_of_readText? (h : readText? s = some m) :
    m.rows < UInt64.size ∧ m.cols < UInt64.size := by
  obtain ⟨v, -, hv⟩ := Option.bind_eq_some_iff.mp h
  exact lt_size_of_ofJson? hv

/-- A matrix that is read from a text can be built by changes exactly if the text has one cell for
each place and a block of memory can hold them. If there is one cell for each place, every reading
finds its cell and as many bits are counted as are listed. But with the same bounds any other cells
are read as well. Outside the bounds no bit is ever read. Within them every reading finds its cell
exactly if there are at least as many cells as places, and then the bits that are counted but not
listed are those of the cells beyond. -/
theorem read_matrix_built_iff (h : readText? s = some m) :
    (m.Built ↔ m.cells.size = m.rows * m.cols ∧ m.cells.size ≤ maxCells) ∧
      (m.cells.size = m.rows * m.cols →
        (∀ r c, m.get? r c = some (m.get r c)) ∧ m.count = m.ones.length) ∧
      (∀ cells : Array Bool, ∃ s', readText? s' = some { m with cells }) ∧
      (∀ r c, ¬(r < m.rows ∧ c < m.cols) → m.get? r c = some false) ∧
      ((∀ r c, (m.get? r c).isSome = true) ↔ m.rows * m.cols ≤ m.cells.size) ∧
      (m.rows * m.cols ≤ m.cells.size → m.count = m.ones.length + m.surplus.count true) := by
  obtain ⟨hrows, hcols⟩ := lt_size_of_readText? h
  refine ⟨?_, fun hm => ⟨get?_eq_some hm, count_eq_length_ones hm⟩, exists_readText? hrows hcols,
    fun r c hout => if_neg hout, isSome_get?_iff, count_eq⟩
  rw [built_iff_storable]
  constructor
  · exact fun hm => ⟨hm.wellFormed, hm.wellFormed ▸ hm.room.cells_le⟩
  · rintro ⟨hsize, hcells⟩
    exact ⟨hsize, hrows, hcols, hsize ▸ hcells⟩

/-- A row of two places whose text has three cells. -/
theorem read_matrix_built_iff_row :
    let s := "\x7b\"rows\":1,\"cols\":2,\"cells\":[true,false,true]\x7d"
    let m : BitMatrix := ⟨1, 2, #[true, false, true]⟩
    readText? s = some m ∧ ¬m.Built ∧ (∀ r c, (m.get? r c).isSome = true) ∧
      m.count = m.ones.length + 1 := by
  intro s m
  have hread : readText? s = some m := by decide +kernel
  obtain ⟨hbuilt, -, -, -, hreads, hcount⟩ := read_matrix_built_iff hread
  exact ⟨hread, fun hm => absurd (hbuilt.mp hm).1 (by decide), hreads.mpr (by decide),
    hcount (by decide)⟩

/-- Texts that are read as matrices with a cell too many and with one too few. In the one a bit is
counted that is not listed, in the other a reading within the bounds finds no cell. -/
theorem read_matrix_cells_unchecked :
    let surplus : BitMatrix := ⟨0, 0, #[true]⟩
    let lacking : BitMatrix := ⟨1, 1, #[]⟩
    readText? "\x7b\"rows\":0,\"cols\":0,\"cells\":[true]\x7d" = some surplus ∧
      readText? "\x7b\"rows\":1,\"cols\":1,\"cells\":[]\x7d" = some lacking ∧
      surplus.cells.size ≠ surplus.rows * surplus.cols ∧
      surplus.count = 1 ∧ surplus.ones = [] ∧
      lacking.cells.size ≠ lacking.rows * lacking.cols ∧ lacking.get? 0 0 = none := by
  decide +kernel

end TripleGrammar.BitMatrix
