/-!
# Bit matrices

A dense matrix of bits by rows. It serves as the adjacency relation of a graph, and as an
assignment of the nodes of one graph to those of another.

A matrix built by the operations here has one cell for each pair of a row and a column
(`BitMatrix.WellFormed`). The type does not ask for it, since a matrix can also be read from text.
-/

namespace TripleGrammar

structure BitMatrix where
  rows : Nat
  cols : Nat
  cells : Array Bool
deriving DecidableEq

namespace BitMatrix

/-- There is exactly one cell for each pair of a row and a column. -/
def WellFormed (m : BitMatrix) : Prop := m.cells.size = m.rows * m.cols

instance (m : BitMatrix) : Decidable m.WellFormed := inferInstanceAs (Decidable (_ = _))

/-- The matrix whose cell in row `r` and column `c` is `f r c`. -/
def ofFn (rows cols : Nat) (f : Nat → Nat → Bool) : BitMatrix where
  rows := rows
  cols := cols
  cells := Array.ofFn fun k : Fin (rows * cols) => f (k / cols) (k % cols)

def zero (rows cols : Nat) : BitMatrix where
  rows := rows
  cols := cols
  cells := Array.replicate (rows * cols) false

def square (n : Nat) : BitMatrix := zero n n

/-- The bit in row `r` and column `c`. Outside the matrix no bit is set. -/
def get (m : BitMatrix) (r c : Nat) : Bool :=
  decide (r < m.rows) && decide (c < m.cols) && m.cells.getD (r * m.cols + c) false

/-- The cell that holds the bit in row `r` and column `c`, if the matrix has one. Outside the matrix
no cell is looked up. -/
def get? (m : BitMatrix) (r c : Nat) : Option Bool :=
  if r < m.rows ∧ c < m.cols then m.cells[r * m.cols + c]? else some false

/-- Why a bit cannot be written. -/
inductive WriteError where
  /-- There is no such row or no such column. -/
  | outOfRange (row col : Nat)
deriving DecidableEq

def WriteError.message : WriteError → String
  | .outOfRange r c => s!"cell ({r}, {c}) out of range"

/-- Writes the bit in row `r` and column `c`. A cell outside the matrix is left alone. -/
def set (m : BitMatrix) (r c : Nat) (b : Bool) : BitMatrix :=
  if r < m.rows ∧ c < m.cols then { m with cells := m.cells.setIfInBounds (r * m.cols + c) b }
  else m

def write (m : BitMatrix) (r c : Nat) (b : Bool) : Except WriteError BitMatrix :=
  if r < m.rows ∧ c < m.cols then .ok (m.set r c b) else .error (.outOfRange r c)

def grow (m : BitMatrix) : BitMatrix := ofFn (m.rows + 1) (m.cols + 1) m.get

def transpose (m : BitMatrix) : BitMatrix := ofFn m.cols m.rows fun r c => m.get c r

/-- The columns whose bit is set in row `r`, ascending. -/
def rowOnes (m : BitMatrix) (r : Nat) : List Nat := (List.range m.cols).filter (m.get r)

def ones (m : BitMatrix) : List (Nat × Nat) :=
  (List.range m.rows).flatMap fun r => (m.rowOnes r).map fun c => (r, c)

def count (m : BitMatrix) : Nat := m.cells.count true

end BitMatrix

end TripleGrammar
