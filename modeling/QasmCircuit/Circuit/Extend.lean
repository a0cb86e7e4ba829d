import QasmCircuit.Circuit.Modifier

/-!
# Joining circuits

An instruction is applied again to another container, with the same modifiers and all checks of that
container. A circuit is extended by another one completely or not at all.
-/

namespace QasmCircuit.Action

/-- Gives a new instruction the modifiers of another one. -/
def applyModifiers (x : Instruction) (i : InstructionId) : Action Unit := do
  let n ← depth
  if !x.controls.isEmpty then control n i (x.controls.map .register)
  match x.condition with
  | none => pure ()
  | some (r, v) => condition n i (.register r) (.datum (.int v))

/-- A new instruction in a circuit that does what another one does, with the same modifiers. It is not attached;
the members of a body are applied again by `again`. -/
def renew (again : InstructionId → Container → Action InstructionId) (i : InstructionId) (home : CircuitId) :
    Action InstructionId := do
  let x ← instruction i
  match x.operation with
  | .barrier => create { operation := .barrier, args := x.args, circuit := home }
  | .measure =>
    let j ← create { operation := .measure, args := x.args, circuit := home }
    applyModifiers x j
    pure j
  | .atomic f =>
    let g ← lift ((← circuit home).library.lookup f.name)
    let j ← create { operation := .atomic g, params := x.params, args := x.args, circuit := home }
    applyModifiers x j
    pure j
  | .composite name body inverted =>
    let params := x.params.map fun p => Argument.datum (.real p)
    let j ← newComposite home (.datum (.text name)) (x.args.map .bit) (.ok params)
    body.forM fun k => do
      let _ ← again k (.gate j)
    let y ← instruction j
    let built ← Action.body j
    put j { y with
      operation := .composite name built inverted, condition := x.condition, controls := x.controls }
    pure j

/-- Applies an instruction again to a container. -/
def reapply : Nat → InstructionId → Container → Action InstructionId
  | 0, _, _ => throw .selfContaining
  | depth + 1, i, container => do
    let j ← renew (reapply depth) i (← circuitOf container)
    attach container j
    pure j

/-- Extends a circuit by the registers and instructions of another one. If anything fails, registers and
instructions of the circuit are as before. -/
def extend (c other : CircuitId) : Action Unit := do
  let x ← circuit c
  let y ← circuit other
  y.registers.forM fun r => do
    match x.register? r.name with
    | some own => if own ≠ r then fail (.register (.declaredDifferently r.name x.label))
    | none => pure ()
  let missing := y.registers.filter fun r => (x.register? r.name).isNone
  addRegisters c (missing.map .register)
  let n ← depth
  try y.data.forM fun i => do
      let _ ← reapply n i (.circuit c)
  catch e =>
    let now ← circuit c
    putCircuit c { now with registers := x.registers, data := x.data }
    throw e

/-- A new circuit with the registers and instructions of a circuit. -/
def duplicate (a : CircuitId) : Action CircuitId := do
  let x ← circuit a
  let c ← newCircuit (some x.name) x.library (x.registers.map .register)
  extend c a
  pure c

/-- A new circuit with the registers and instructions of two circuits, one after the other. -/
def concat (a b : CircuitId) : Action CircuitId := do
  let c ← duplicate a
  extend c b
  pure c

end QasmCircuit.Action
