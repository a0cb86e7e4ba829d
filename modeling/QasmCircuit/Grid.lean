import QasmCircuit.Unitary

/-!
# Matrices of any shape

Operations on matrices that a caller gives row by row, which may have any shape. Where shapes do not fit,
a single column stands for as many equal columns as are needed.
-/

namespace QasmCircuit

namespace Matrix

/-- The entry in a row and a column, where a single row or column is repeated. -/
def spread {α : Type} [Zero α] (m : Matrix α) (i j : Nat) : α :=
  m.get (if m.rows = 1 then 0 else i) (if m.cols = 1 then 0 else j)

/-- The sum of some products of the parts of two matrices along a row and a column. A product is not rounded
before it is added. -/
def fusedDot (a b : Matrix Complex) (left right : Complex → Float) (i j : Nat) : Float :=
  (List.range a.cols).foldl (fun acc k => Decimal.fused (left (a.get i k)) (right (b.get k j)) acc) 0.0

/-- The product of two matrices, where the products of the parts are summed apart and joined at the end. -/
def fusedMul (a b : Matrix Complex) : Matrix Complex :=
  let re := Complex.re
  let im := Complex.im
  tabulate a.rows b.cols fun i j =>
    ⟨a.fusedDot b re re i j - a.fusedDot b im im i j, a.fusedDot b re im i j + a.fusedDot b im re i j⟩

end Matrix

/-- Rows of numbers as a caller gives them. -/
inductive Grid where
  /-- No rows at all, which have no length. -/
  | vacant
  | filled (matrix : Matrix Complex)

namespace Grid

/-- The grid with given rows, which have to be of one length. -/
def ofRows : List (List Complex) → Except Fault Grid
  | [] => .ok .vacant
  | row :: rows =>
    if rows.all fun r => r.length == row.length then
      .ok (.filled (.tabulate (rows.length + 1) row.length fun i j => ((row :: rows).getD i []).getD j 0))
    else .error (.defect (.unevenRows (rows.length + 1)))

/-- The lengths of a grid along its axes. -/
def shape : Grid → List Nat
  | .vacant => [0]
  | .filled m => [m.rows, m.cols]

def toMatrix : Grid → Matrix Complex
  | .vacant => .tabulate 0 0 fun _ _ => 0
  | .filled m => m

/-- The product of a matrix and a grid, scaled by one: an infinite part of an entry leaves no number in
the other part. -/
def times (a : Matrix Complex) (g : Grid) : Except Fault Grid :=
  let b := g.toMatrix
  if a.cols = b.rows then
    let m := a.fusedMul b
    .ok (.filled (.tabulate m.rows m.cols fun i j => 1 * m.get i j))
  else .error (.defect (.productSizes b.rows a.cols))

/-- The most entries that there is room for. Machines differ in that; nothing depends on the number but where
`Fault.noRoom` begins. -/
def room : Nat := Nat.pow 2 26

/-- The fault of a matrix that is too large. An entry takes sixteen bytes, and no more than `2 ^ 63` of them
can be counted. -/
def areaFault? (rows cols : Nat) : Option Fault :=
  if Nat.pow 2 63 ≤ 16 * (rows * cols) then some (.defect .tooManyEntries)
  else if room < rows * cols then some .noRoom
  else none

/-- The fault of a square matrix with `rows * 2 ^ doublings` rows that is too large. -/
def sizeFault? (rows doublings : Nat) : Option Fault :=
  if rows = 0 then none
  else if 63 ≤ rows.log2 + doublings then some (.defect .dimension)
  else areaFault? (rows * Nat.pow 2 doublings) (rows * Nat.pow 2 doublings)

/-- Fails with a fault, if there is one. -/
def refuse : Option Fault → Except Fault Unit
  | some f => .error f
  | none => .ok ()

def identity (qubits : Nat) : Except Fault (Matrix Complex) := do
  refuse (sizeFault? 1 qubits)
  pure (.identity (Nat.pow 2 qubits))

/-- Adds controlling qubits in front. The grid becomes the last block of a larger identity. -/
def controlled (g : Grid) (controls : Int) : Except Fault Grid := do
  let m := g.toMatrix
  if controls = 0 then return g
  if controls < 0 then throw .wrongKind
  refuse (sizeFault? m.rows controls.toNat)
  if m.cols = m.rows then pure (.filled (m.controlled controls.toNat))
  else if m.cols = 1 then pure (.filled ((Matrix.tabulate m.rows m.rows m.spread).controlled controls.toNat))
  else throw (.defect (.blockShape m.rows m.cols))

/-- The first fault in the axes that an embedding exchanges, of which there are `count`. -/
def axisFault? (count : Nat) : List Nat → List Nat → Option Fault
  | _, [] => none
  | seen, axis :: rest =>
    if count ≤ axis then some .missingAxis
    else if seen.contains axis then some (.defect .repeatedAxis)
    else axisFault? count (axis :: seen) rest

/-- Extends an operator on the qubits at some positions to more qubits, if there is room. -/
def embedMatrix {α : Type} [Zero α] [One α] [Mul α] (m : Matrix α) (positions : List Int) (width : Int) :
    Except Fault (Matrix α) := do
  if width < positions.length then throw .wrongKind
  let qubits := width.toNat
  let spare := qubits - positions.length
  refuse (sizeFault? 1 spare)
  let other := Nat.pow 2 spare
  refuse (areaFault? (m.rows * other) (m.cols * other))
  if Defect.axisLimit < 2 * qubits then throw (.defect (.tooManyAxes (2 * qubits)))
  let size := m.rows * other * (m.cols * other)
  if size ≠ Nat.pow 2 (2 * qubits) then throw (.defect (.qubitCount size qubits))
  let axes := Matrix.axesOf positions qubits
  refuse (axisFault? (2 * qubits) [] (axes ++ axes.map (qubits + ·)))
  pure (m.expand positions qubits)

/-- Extends a grid on the qubits at some positions to more qubits. -/
def embed (g : Grid) (positions : List Int) (width : Int) : Except Fault Grid :=
  (embedMatrix g.toMatrix positions width).map .filled

/-- Adds as many controlling qubits as a value says. A real number can only say that there are none. -/
def controlledBy (g : Grid) (controls : Datum) : Except Fault Grid :=
  match controls.number? with
  | some (.inl n) => g.controlled n
  | some (.inr x) => if x == 0.0 then .ok g else .error .wrongKind
  | none => .error .wrongKind

/-- The qubit that a value names; what names none stands for a position in front of all. -/
def positionOf (d : Datum) : Int :=
  match d.number? with
  | some (.inl n) => n
  | some (.inr x) => (Decimal.toInt? x).getD (-1)
  | none => -1

/-- Extends an operator to as many qubits as a value says. -/
def embedAt (g : Grid) (positions : List Datum) (width : Datum) : Except Fault Grid :=
  match width.number? with
  | some (.inl n) => g.embed (positions.map positionOf) n
  | _ => .error .wrongKind

/-- Whether an entry is a target, or lies within the tolerances around it. -/
def isNear (tolerance : Float) (entry target : Complex) : Bool :=
  (entry.re == target.re && entry.im == target.im) || (entry - target).abs <= tolerance + 1e-5 * target.abs

/-- Whether a grid is the identity, up to a tolerance for each entry and a relative one. -/
def isIdentity (g : Grid) (tolerance : Float) : Except Fault Bool :=
  let m := g.toMatrix
  if m.cols = m.rows || m.cols = 1 || m.rows = 1 then
    let cols := if m.cols = 1 then m.rows else m.cols
    let target : Matrix Complex := .identity m.rows
    .ok ((List.range m.rows).all fun i => (List.range cols).all fun j =>
      isNear tolerance (m.spread i j) (target.spread i j))
  else .error (.defect (.shapes m.rows m.cols))

end Grid

end QasmCircuit
