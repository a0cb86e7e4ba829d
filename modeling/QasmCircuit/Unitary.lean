import QasmCircuit.Arithmetic
import QasmCircuit.Complex
import QasmCircuit.Matrix

/-!
# Matrices of gates

The unitary of every family of the standard gates, from its parameters. Half angles of integers are
rounded once, and an infinite half angle has no sine.
-/

namespace QasmCircuit

namespace Unitary

def ofRows (size : Nat) (rows : List (List Complex)) : Matrix Complex :=
  .tabulate size size fun i j => (rows.getD i []).getD j 0

def imaginary : Complex := ⟨0.0, 1.0⟩

def real (x : Float) : Complex := ⟨x, 0.0⟩

def identityGate : Matrix Complex := .identity 2

def flip : Matrix Complex := ofRows 2 [[0, 1], [1, 0]]

/-- The flip with a phase. -/
def flipPhase : Matrix Complex := ofRows 2 [[0, -imaginary], [imaginary, 0]]

/-- The flip of the phase. -/
def phaseFlip : Matrix Complex := ofRows 2 [[1, 0], [0, real (-1.0)]]

def hadamard : Matrix Complex :=
  let h := real (1.0 / (2.0 : Float).sqrt)
  ofRows 2 [[h, h], [h, -h]]

def rootFlip : Matrix Complex :=
  ofRows 2 [[⟨0.5, 0.5⟩, ⟨0.5, -0.5⟩], [⟨0.5, -0.5⟩, ⟨0.5, 0.5⟩]]

def rootFlipInverse : Matrix Complex :=
  .tabulate 2 2 fun i j => (rootFlip.get j i).conj

def exchange : Matrix Complex :=
  ofRows 4 [[1, 0, 0, 0], [0, 0, 1, 0], [0, 1, 0, 0], [0, 0, 0, 1]]

def phase (angle : Float) : Matrix Complex := ofRows 2 [[1, 0], [0, .turn 1.0 angle]]

/-- The angle that a value stands for; a text stands for none. -/
def angle : Datum → Except Fault Float
  | .text _ => .error .wrongKind
  | d => d.toReal

/-- Half of the angle that a value stands for. -/
def halfAngle : Datum → Except Fault Float
  | .int n => match Decimal.ofQuotient? n 2 with
    | some x => .ok x
    | none => .error .tooLarge
  | d => do pure ((← angle d) / 2.0)

/-- Cosine and sine of half of an angle. -/
def halfTurn (d : Datum) : Except Fault (Complex × Complex) := do
  let x ← halfAngle d
  if x.isInf then .error (.defect .mathDomain) else pure (real x.cos, real x.sin)

/-- The rotation about the first axis. -/
def rotationX (theta : Datum) : Except Fault (Matrix Complex) := do
  let (c, s) ← halfTurn theta
  let off := -imaginary * s
  pure (ofRows 2 [[c, off], [off, c]])

/-- The rotation about the second axis. -/
def rotationY (theta : Datum) : Except Fault (Matrix Complex) := do
  let (c, s) ← halfTurn theta
  pure (ofRows 2 [[c, -s], [s, c]])

/-- The rotation about the third axis. -/
def rotationZ (phi : Datum) : Except Fault (Matrix Complex) := do
  let x ← angle phi
  pure (ofRows 2 [[.turn (-0.5) x, 0], [0, .turn 0.5 x]])

/-- The sum of two angles, exact for integers. -/
def angleSum (a b : Datum) : Except Fault Datum :=
  match a.number?, b.number? with
  | some (.inl m), some (.inl n) => .ok (.int (m + n))
  | _, _ => do pure (.real ((← angle a) + (← angle b)))

/-- The general gate on one qubit, from its Euler angles. -/
def general (theta phi lam : Datum) : Except Fault (Matrix Complex) := do
  let (c, s) ← halfTurn theta
  let l ← angle lam
  let p ← angle phi
  let both ← angle (← angleSum phi lam)
  pure (ofRows 2 [[c, -Complex.turn 1.0 l * s], [Complex.turn 1.0 p * s, Complex.turn 1.0 both * c]])

/-- The matrix of a gate without parameters. -/
def fixed? : String → Option (Matrix Complex)
  | "id" => some identityGate
  | "x" => some flip
  | "y" => some flipPhase
  | "z" => some phaseFlip
  | "h" => some hadamard
  | "s" => some (phase (Arithmetic.pi / 2.0))
  | "sdg" => some (phase (-Arithmetic.pi / 2.0))
  | "t" => some (phase (Arithmetic.pi / 4.0))
  | "tdg" => some (phase (-Arithmetic.pi / 4.0))
  | "sx" => some rootFlip
  | "sxdg" => some rootFlipInverse
  | "cx" => some (flip.controlled 1)
  | "cy" => some (flipPhase.controlled 1)
  | "cz" => some (phaseFlip.controlled 1)
  | "ch" => some (hadamard.controlled 1)
  | "swap" => some exchange
  | "ccx" => some (flip.controlled 2)
  | "cswap" => some (exchange.controlled 1)
  | "c3x" => some (flip.controlled 3)
  | "c4x" => some (flip.controlled 4)
  | _ => none

/-- The matrix of a gate with one parameter. -/
def oneParam? : String → Option (Datum → Except Fault (Matrix Complex))
  | "rx" => some rotationX
  | "ry" => some rotationY
  | "rz" => some rotationZ
  | "u1" | "p" => some fun d => do pure (phase (← angle d))
  | "crx" => some fun d => do pure ((← rotationX d).controlled 1)
  | "cry" => some fun d => do pure ((← rotationY d).controlled 1)
  | "crz" => some fun d => do pure ((← rotationZ d).controlled 1)
  | "cu1" | "cp" => some fun d => do pure ((phase (← angle d)).controlled 1)
  | _ => none

/-- The matrix of a gate with three parameters. -/
def threeParams? : String → Option (Datum → Datum → Datum → Except Fault (Matrix Complex))
  | "u3" => some general
  | "cu3" => some fun a b c => do pure ((← general a b c).controlled 1)
  | _ => none

/-- The matrix of a gate with some parameters, of which there have to be the right number. -/
def ofGate (name : String) (params : List Datum) : Except Fault (Matrix Complex) :=
  match fixed? name, oneParam? name, threeParams? name, params with
  | some m, _, _, [] => .ok m
  | _, some f, _, [a] => f a
  | _, _, some f, [a, b, c] => f a b c
  | none, none, none, _ => fail (.resolution (.noUnitary name))
  | _, _, _, _ => .error .wrongKind

def isKnown (name : String) : Bool :=
  (fixed? name).isSome || (oneParam? name).isSome || (threeParams? name).isSome

/-- The matrix of the gate that a value names. The parameters are asked for once the gate is known. -/
def ofDatum (name : Datum) (params : Except Fault (List Datum)) : Except Fault (Matrix Complex) :=
  match name with
  | .text s => if isKnown s then do ofGate s (← params) else fail (.resolution (.noUnitary s))
  | .list _ | .mapping _ => .error .wrongKind
  | d => fail (.resolution (.noUnitary d.asName))

/-- The entries of a row that are not zero, with their columns. -/
def support (a : Matrix Complex) (i : Nat) : List (Nat × Complex) :=
  (List.range a.cols).filterMap fun k =>
    let x := a.get i k
    if x.isZero then none else some (k, x)

/-- The product of two matrices. Where all entries are finite, those of the first matrix that are zero add
nothing and are passed over. -/
def compose (a b : Matrix Complex) : Matrix Complex :=
  if b.entries.all Complex.isFinite then
    let rows := Array.ofFn fun (i : Fin a.rows) => support a i
    .tabulate a.rows b.cols fun i j => (rows.getD i []).foldl (fun acc (k, x) => acc + x * b.get k j) 0
  else a.mul b

/-- The product of two matrices of fitting sizes. -/
def product (a b : Matrix Complex) : Except Fault (Matrix Complex) :=
  if a.cols = b.rows then .ok (compose a b) else .error (.defect (.productSizes b.rows a.cols))

/-- The tolerance that is used where none is given. -/
def defaultTolerance : Float := 1e-9

end Unitary

end QasmCircuit
