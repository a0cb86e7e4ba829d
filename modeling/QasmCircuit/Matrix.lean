/-!
# Matrices

Matrices over any entries. The first qubit of an operator stands for the most significant bit of an index.

> `Matrix.get_tabulate`: a tabulated matrix has the entries of its function.
-/

namespace QasmCircuit

/-- A matrix with its entries row by row. -/
structure Matrix (α : Type) where
  rows : Nat
  cols : Nat
  entries : Array α
  size_eq : entries.size = rows * cols

namespace Matrix

variable {α : Type}

def tabulate (rows cols : Nat) (f : Nat → Nat → α) : Matrix α :=
  ⟨rows, cols, Array.ofFn fun (k : Fin (rows * cols)) => f (k.val / cols) (k.val % cols), by simp⟩

/-- The entry in a row and a column, which is zero outside of the matrix. -/
def get [Zero α] (m : Matrix α) (i j : Nat) : α :=
  if j < m.cols then m.entries.getD (i * m.cols + j) 0 else 0

section

variable {rows cols i j : Nat}

theorem flat_lt (hi : i < rows) (hj : j < cols) : i * cols + j < rows * cols :=
  Nat.lt_of_lt_of_le (Nat.add_lt_add_left hj _) (by
    rw [← Nat.succ_mul]; exact Nat.mul_le_mul_right cols hi)

theorem flat_div (hj : j < cols) : (i * cols + j) / cols = i := by
  rw [Nat.add_comm, Nat.add_mul_div_right _ _ (Nat.zero_lt_of_lt hj), Nat.div_eq_of_lt hj, Nat.zero_add]

theorem flat_mod (hj : j < cols) : (i * cols + j) % cols = j := by
  rw [Nat.add_comm, Nat.add_mul_mod_self_right, Nat.mod_eq_of_lt hj]

theorem get_tabulate [Zero α] (f : Nat → Nat → α) (hi : i < rows) (hj : j < cols) :
    (tabulate rows cols f).get i j = f i j := by
  simp [get, tabulate, hj, Array.getD, flat_lt hi hj, flat_div hj, flat_mod hj]

end

def identity [Zero α] [One α] (n : Nat) : Matrix α :=
  tabulate n n fun i j => if i = j then 1 else 0

/-- The sum of the products along a row and a column. -/
def dot [Zero α] [Add α] [Mul α] (a b : Matrix α) (i j : Nat) : α :=
  (List.range a.cols).foldl (fun acc k => acc + a.get i k * b.get k j) 0

/-- The product of two matrices. -/
def mul [Zero α] [Add α] [Mul α] (a b : Matrix α) : Matrix α :=
  tabulate a.rows b.cols (dot a b)

/-- The Kronecker product of two matrices. -/
def kron [Zero α] [Mul α] (a b : Matrix α) : Matrix α :=
  tabulate (a.rows * b.rows) (a.cols * b.cols) fun i j =>
    a.get (i / b.rows) (j / b.cols) * b.get (i % b.rows) (j % b.cols)

/-- The matrix as the last block of a larger identity. -/
def block [Zero α] [One α] (m : Matrix α) (size : Nat) : Matrix α :=
  tabulate size size fun i j =>
    if size - m.rows ≤ i && size - m.rows ≤ j then m.get (i - (size - m.rows)) (j - (size - m.rows))
    else if i = j then 1 else 0

/-- Adds controlling qubits in front: the matrix acts where all of them are set. -/
def controlled [Zero α] [One α] (m : Matrix α) (controls : Nat) : Matrix α :=
  if controls = 0 then m else m.block (m.rows * Nat.pow 2 controls)

/-- The bit of an index of `n` bits at a position, counted from the most significant one. -/
def bitAt (n position index : Nat) : Nat := index / Nat.pow 2 (n - 1 - position) % 2

/-- A matrix with the same entries, read row by row, in other rows. -/
def reshape [Zero α] (m : Matrix α) (rows cols : Nat) : Matrix α :=
  tabulate rows cols fun i j => m.entries.getD (i * cols + j) 0

/-- The index of `n` bits that has the bits of an index at other places: the bit at `a` goes to `axes[a]`. -/
def scatter (n : Nat) (axes : List Nat) (index : Nat) : Nat :=
  ((List.range n).map fun a => bitAt n a index * Nat.pow 2 (n - 1 - axes.getD a 0)).foldr (· + ·) 0

/-- Exchanges the qubits of an operator: its qubit `axes[a]` becomes the qubit `a`. -/
def transpose [Zero α] (n : Nat) (axes : List Nat) (m : Matrix α) : Matrix α :=
  let source := Array.ofFn fun (i : Fin (Nat.pow 2 n)) => scatter n axes i
  tabulate (Nat.pow 2 n) (Nat.pow 2 n) fun i j => m.get (source.getD i 0) (source.getD j 0)

/-- The qubits of an operator in the order of their axes: first those at some positions, then the others. -/
def axisOrder (positions : List Int) (n : Nat) : List Int :=
  positions ++ ((List.range n).map Int.ofNat).filter fun q => !positions.contains q

/-- The axis of each qubit in this order. -/
def axesOf (positions : List Int) (n : Nat) : List Nat :=
  (List.range n).map fun q => (axisOrder positions n).idxOf (Int.ofNat q)

/-- Extends an operator on the qubits at some positions to `n` qubits: the operator is put beside the identity
on the other qubits, and the qubits are brought into their order. -/
def expand [Zero α] [One α] [Mul α] (m : Matrix α) (positions : List Int) (n : Nat) : Matrix α :=
  ((m.kron (identity (Nat.pow 2 (n - positions.length)))).reshape (Nat.pow 2 n) (Nat.pow 2 n)).transpose n
    (axesOf positions n)

end Matrix

end QasmCircuit
