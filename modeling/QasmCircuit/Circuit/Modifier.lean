import QasmCircuit.Circuit.Builder

/-!
# Modifiers

Inverting, conditioning and controlling. Gates with a body are changed in place, together with what is
inside them; an atomic gate that is not its own inverse gives a new gate. Every modifier checks before it
changes. The first argument bounds how deep gates are nested.
-/

namespace QasmCircuit.Action

def inverse : Nat → InstructionId → Action InstructionId
  | 0, _ => throw .selfContaining
  | depth + 1, i => do
    let x ← instruction i
    match x.operation with
    | .atomic f =>
      if f.selfInverse then pure i
      else
        let params ← lift (f.invertParams x.params)
        let g ← lift ((← circuit x.circuit).library.lookup f.inverseName)
        create { x with operation := .atomic g, params }
    | .barrier => pure i
    | .measure => fail (.modifier (.notUnitary x.name))
    | .composite name body inverted =>
      let body ← body.reverse.mapM (inverse depth)
      put i { x with operation := .composite name body (!inverted) }
      pure i

def inverseCircuit (c : CircuitId) : Action Unit := do
  let x ← circuit c
  x.data.forM fun i => do
    let y ← instruction i
    match y.operation with
    | .measure => fail (.modifier (.notInvertible x.label y.name))
    | _ => pure ()
  let data ← x.data.reverse.mapM (inverse (← depth))
  let x ← circuit c
  putCircuit c { x with data }

/-- The members of a body that are no barriers. -/
def gatesOf (body : List InstructionId) : Action (List InstructionId) :=
  body.filterM fun i => do pure !(← instruction i).isBarrier

def condition : Nat → InstructionId → Argument → Argument → Action Unit
  | 0, _, _, _ => throw .selfContaining
  | depth + 1, i, register, value => do
    let x ← instruction i
    match x.operation with
    | .barrier => fail (.modifier .barrierCondition)
    | .atomic _ | .measure =>
      let new ← checkCondition x register value
      put i { x with condition := some new }
    | .composite _ body _ =>
      let new ← checkCondition x register value
      let gates ← gatesOf body
      gates.forM fun j => do
        let _ ← checkCondition (← instruction j) register value
      gates.forM fun j => condition depth j register value
      let x ← instruction i
      put i { x with condition := some new }

/-- Checks a condition on every member of a group. -/
def checkConditionOnAll (is : List InstructionId) (register value : Argument) : Action Unit :=
  is.forM fun i => do
    let _ ← checkCondition (← instruction i) register value

/-- Puts every member of a group under a condition. -/
def conditionAll (is : List InstructionId) (register value : Argument) : Action Unit := do
  checkConditionOnAll is register value
  let n ← depth
  is.forM fun i => condition n i register value

/-- The family with a number of controls in front, reached by the links of the library. -/
def controlledFamily (c : Circuit) (gate : String) (total : Nat) : Nat → Family → Except Fault Family
  | 0, f => .ok f
  | n + 1, f =>
    match f.controlled with
    | none => fail (.modifier (.noControlledForm gate total))
    | some name => do
      let g ← asModifier (.cannotControl gate) (c.library.lookup name)
      controlledFamily c gate total n g

/-- Checks that some bits can be added to those that an instruction already uses. -/
def checkFresh (name : String) (used : List Bit) : List Bit → Except Fault (List Bit)
  | [] => .ok used
  | b :: rest =>
    if b.among used then fail (.modifier (.controlOverlap b.text name))
    else checkFresh name (b :: used) rest

/-- Checks new controls against what an instruction already uses. -/
def checkControlRegisters (c : Circuit) (name : String) (used : List Bit) : List Argument → Except Fault (List Register)
  | [] => .ok []
  | .register r :: rest =>
    if r.isQuantum then do
      asModifier (.cannotControl name) (c.checkQuantum (.register r))
      let used ← checkFresh name used r.bits
      pure (r :: (← checkControlRegisters c name used rest))
    else fail (.modifier (.controlKind name))
  | _ :: _ => fail (.modifier (.controlKind name))

/-- Checks new controls of an instruction: of a gate with a body together with what is inside it. -/
def checkControls : Nat → InstructionId → List Argument → Action (List Register)
  | 0, _, _ => throw .selfContaining
  | depth + 1, i, regs => do
    let x ← instruction i
    let c ← circuit x.circuit
    let new ← lift (checkControlRegisters c x.name (x.args ++ x.controlBits) regs)
    match x.operation with
    | .atomic f =>
      let total := x.controlBits.length + (new.map (·.size)).sum
      let _ ← lift (controlledFamily c x.name total total f)
    | .composite _ body _ =>
      (← gatesOf body).forM fun j => do
        let _ ← checkControls depth j regs
    | _ => pure ()
    pure new

def control : Nat → InstructionId → List Argument → Action Unit
  | 0, _, _ => throw .selfContaining
  | depth + 1, i, regs => do
    let x ← instruction i
    match x.operation with
    | .barrier => fail (.modifier .barrierControl)
    | .measure => fail (.modifier .measureControl)
    | .atomic _ =>
      let new ← checkControls (depth + 1) i regs
      put i { x with controls := x.controls ++ new }
    | .composite _ body _ =>
      let new ← checkControls (depth + 1) i regs
      (← gatesOf body).forM fun j => control depth j regs
      let x ← instruction i
      put i { x with controls := x.controls ++ new }

/-- Checks new controls of every member of a group. -/
def checkControlsOfAll (is : List InstructionId) (regs : List Argument) : Action Unit := do
  let n ← depth
  is.forM fun i => do
    let _ ← checkControls n i regs

/-- Adds controls to every member of a group. -/
def controlAll (is : List InstructionId) (regs : List Argument) : Action Unit := do
  checkControlsOfAll is regs
  let n ← depth
  is.forM fun i => control n i regs

/-- An independent copy of an instruction, with copies of what is inside it. -/
def copy : Nat → InstructionId → Action InstructionId
  | 0, _ => throw .selfContaining
  | depth + 1, i => do
    let x ← instruction i
    match x.operation with
    | .composite name body inverted =>
      let body ← body.mapM (copy depth)
      create { x with operation := .composite name body inverted }
    | _ => create x

end QasmCircuit.Action
