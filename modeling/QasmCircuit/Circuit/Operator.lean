import QasmCircuit.Circuit.Modifier
import QasmCircuit.Grid

/-!
# Operators of gates and circuits

The unitary of a gate over some qubits, and of a circuit over all of its qubits. What is measured or
conditioned has none.
-/

namespace QasmCircuit.Action

/-- The positions of some bits among others. -/
def positionsOf (qubits bits : List Bit) : Except Fault (List Nat) :=
  bits.mapM fun b =>
    match qubits.findIdx? b.same with
    | some p => .ok p
    | none => .error (.defect (.notListed b.shown))

def operator : Nat → List Bit → InstructionId → Action (Matrix Complex)
  | 0, _, _ => throw .selfContaining
  | depth + 1, qubits, i => do
    let x ← instruction i
    if x.condition.isSome then fail (.modifier (.conditioned x.name))
    match x.operation with
    | .atomic f =>
      let m ← lift (Unitary.ofGate f.name (x.params.map .real))
      let g ← lift ((Grid.filled m).controlled x.controlBits.length)
      let positions ← lift (positionsOf qubits x.allBits)
      pure (← lift (g.embed (positions.map Int.ofNat) qubits.length)).toMatrix
    | .composite _ body _ =>
      let start ← lift (Grid.identity qubits.length)
      (← gatesOf body).foldlM (fun (acc : Matrix Complex) j => do
        pure (Unitary.compose (← operator depth qubits j) acc)) start
    | _ => throw .missingPart

/-- The operator of a gate over its own qubits, the controlling ones first. -/
def gateOperator (i : InstructionId) : Action (Matrix Complex) := do
  let x ← instruction i
  match x.operation with
  | .barrier | .measure => throw .missingPart
  | _ => operator (← depth) x.allBits i

def circuitOperator (c : CircuitId) : Action (Matrix Complex) := do
  let x ← circuit c
  let qubits := x.qubits
  let start ← lift (Grid.identity qubits.length)
  let n ← depth
  x.data.foldlM (fun (acc : Matrix Complex) i => do
    let y ← instruction i
    match y.operation with
    | .barrier => pure acc
    | .measure => fail (.modifier (.noMatrix y.name))
    | _ => pure (Unitary.compose (← operator n qubits i) acc)) start

/-- The product of some operators, the first one applied first. -/
def product : List (Matrix Complex) → Except Fault (Matrix Complex)
  | [] => .error .missingItem
  | m :: rest => rest.foldlM (fun acc n => Unitary.product n acc) m

end QasmCircuit.Action
