import TripleGrammar.BitMatrix.Lemmas

/-!
# Sizes of bit matrices

The bounds of a matrix are machine words, and its cells, which take a byte each, lie in one block of
memory. So not every matrix can be made. A bound or a number of cells that exceeds a word is an
overflow and ends the operation (arithmetic that wraps around instead is not described here), and no
block of memory is longer than half of what a word can count. Where there is room, what is made is
what the operations without these checks give.
-/

namespace TripleGrammar.BitMatrix

variable {m m' : BitMatrix} {rows cols : Nat} {make : Unit → BitMatrix}

/-! ### Room for the cells -/

/-- The number of bytes that a block of memory can have. -/
def maxCells : Nat := UInt64.size / 2 - 1

/-- The bounds are machine words, and a block of memory can have a byte for each cell. -/
structure HasRoom (rows cols : Nat) : Prop where
  rows_lt : rows < UInt64.size
  cols_lt : cols < UInt64.size
  cells_le : rows * cols ≤ maxCells

/-- Why there is no room for a matrix. -/
inductive SizeError where
  /-- A bound exceeds a word. -/
  | boundOverflow
  /-- The number of cells exceeds a word. -/
  | countOverflow
  /-- The number of cells exceeds a block of memory. -/
  | tooManyCells
deriving DecidableEq

def SizeError.message : SizeError → String
  | .boundOverflow => "attempt to add with overflow"
  | .countOverflow => "attempt to multiply with overflow"
  | .tooManyCells => "capacity overflow"

def sizeError? (rows cols : Nat) : Option SizeError :=
  if UInt64.size ≤ rows ∨ UInt64.size ≤ cols then some .boundOverflow
  else if UInt64.size ≤ rows * cols then some .countOverflow
  else if maxCells < rows * cols then some .tooManyCells
  else none

theorem sizeError?_eq_none_iff : sizeError? rows cols = none ↔ HasRoom rows cols := by
  unfold sizeError?
  constructor
  · intro h
    split at h
    · cases h
    · next hbounds =>
      split at h
      · cases h
      · split at h
        · cases h
        · next hcells =>
          obtain ⟨hrows, hcols⟩ := not_or.mp hbounds
          exact ⟨Nat.lt_of_not_le hrows, Nat.lt_of_not_le hcols, Nat.le_of_not_lt hcells⟩
  · rintro ⟨hrows, hcols, hcells⟩
    have hcount : rows * cols < UInt64.size := Nat.lt_of_le_of_lt hcells (by decide)
    rw [if_neg (not_or.mpr ⟨Nat.not_le.mpr hrows, Nat.not_le.mpr hcols⟩),
      if_neg (Nat.not_le.mpr hcount), if_neg (Nat.not_lt.mpr hcells)]

theorem HasRoom.swap (h : HasRoom rows cols) : HasRoom cols rows :=
  ⟨h.cols_lt, h.rows_lt, Nat.mul_comm rows cols ▸ h.cells_le⟩

/-- Bounds that are not zero cannot be too large if the number of cells is not. -/
theorem hasRoom_succ_iff :
    HasRoom (rows + 1) (cols + 1) ↔ (rows + 1) * (cols + 1) ≤ maxCells := by
  refine ⟨HasRoom.cells_le, fun h => ?_⟩
  have hcells : maxCells < UInt64.size := by decide
  have hrows : rows + 1 ≤ (rows + 1) * (cols + 1) := Nat.le_mul_of_pos_right _ (Nat.succ_pos cols)
  have hcols : cols + 1 ≤ (rows + 1) * (cols + 1) := Nat.le_mul_of_pos_left _ (Nat.succ_pos rows)
  exact ⟨by omega, by omega, h⟩

/-! ### Making matrices -/

/-- The matrix that is made, if there is room for one with the given bounds. -/
def sized (rows cols : Nat) (make : Unit → BitMatrix) : Except SizeError BitMatrix :=
  match sizeError? rows cols with
  | some e => .error e
  | none => .ok (make ())

def allocate (rows cols : UInt64) : Except SizeError BitMatrix :=
  sized rows.toNat cols.toNat fun _ => zero rows.toNat cols.toNat

def allocateSquare (n : UInt64) : Except SizeError BitMatrix := allocate n n

/-- Adds a row and a column without set bits. -/
def extend (m : BitMatrix) : Except SizeError BitMatrix :=
  sized (m.rows + 1) (m.cols + 1) fun _ => m.grow

/-- A copy with rows and columns exchanged. -/
def copyTransposed (m : BitMatrix) : Except SizeError BitMatrix :=
  sized m.cols m.rows fun _ => m.transpose

theorem sized_eq_ok_iff : sized rows cols make = .ok m ↔ HasRoom rows cols ∧ make () = m := by
  rw [← sizeError?_eq_none_iff]
  unfold sized
  split
  next e he =>
    rw [he]
    simp
  next hnone => simp [hnone]

theorem allocate_eq_ok_iff {rows cols : UInt64} : allocate rows cols = .ok m ↔
    rows.toNat * cols.toNat ≤ maxCells ∧ zero rows.toNat cols.toNat = m := by
  unfold allocate
  rw [sized_eq_ok_iff]
  exact and_congr_left fun _ =>
    ⟨HasRoom.cells_le, fun h => ⟨rows.toNat_lt, cols.toNat_lt, h⟩⟩

theorem extend_eq_ok_iff :
    m.extend = .ok m' ↔ (m.rows + 1) * (m.cols + 1) ≤ maxCells ∧ m.grow = m' := by
  unfold extend
  rw [sized_eq_ok_iff, hasRoom_succ_iff]

theorem copyTransposed_eq_ok_iff :
    m.copyTransposed = .ok m' ↔ HasRoom m.cols m.rows ∧ m.transpose = m' :=
  sized_eq_ok_iff

/-- Small bounds can have a product that exceeds a word, and a matrix without cells can be too wide
to grow. -/
example : allocate (2 ^ 32) (2 ^ 32) = .error .countOverflow ∧
    (zero 0 (2 ^ 64 - 1)).extend = .error .boundOverflow ∧
    (zero 0 (2 ^ 63)).extend = .error .tooManyCells :=
  ⟨rfl, rfl, rfl⟩

end TripleGrammar.BitMatrix
