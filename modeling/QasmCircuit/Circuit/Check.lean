import QasmCircuit.Circuit.Store

/-!
# Checks before attachment

A circuit accepts an operand if it declares its register with the same name, the right kind and a large
enough size. Whatever is attached is checked first, so that a failing application attaches nothing.
-/

namespace QasmCircuit

namespace Circuit

def checkQuantum (c : Circuit) : Argument → Except Fault Unit
  | .register r =>
    if r.isQuantum && c.hasRegister r then .ok ()
    else Argument.refuse (.register r) fun shown => .resolution (.quantumNotIn shown c.label)
  | a => a.refuse fun shown => .resolution (.quantumNotIn shown c.label)

def checkClassical (c : Circuit) : Argument → Except Fault Unit
  | .register r =>
    if r.isClassical && c.hasRegister r then .ok ()
    else Argument.refuse (.register r) fun shown => .resolution (.classicalNotIn shown c.label)
  | a => a.refuse fun shown => .resolution (.classicalNotIn shown c.label)

def checkBit (c : Circuit) (kind : RegisterKind) (label : String) : Argument → Except Fault Unit
  | .bit b =>
    match c.register? b.register.name with
    | none => fail (.resolution (.registerNotIn b.register.name c.label))
    | some r =>
      if r.kind ≠ kind || b.register.kind ≠ kind then fail (.resolution (.bitRole b.text label c.label))
      else if b.index < r.size then .ok ()
      else fail (.register (.indexRange b.index r.name r.size))
  | a => a.refuse fun shown => .resolution (.bitKind label shown)

def checkQubit (c : Circuit) (a : Argument) : Except Fault Unit := c.checkBit .quantum "qubit" a

def checkClbit (c : Circuit) (a : Argument) : Except Fault Unit := c.checkBit .classical "classical bit" a

/-- Accepts a classical register of a circuit with a value that it can hold. -/
def checkCondition (c : Circuit) (register value : Argument) : Except Fault Condition :=
  match register with
  | .register r =>
    if r.isClassical then do
      c.checkClassical register
      match value with
      | .datum (.int n) =>
        if r.fits n then pure (r, n)
        else value.refuse fun shown => .modifier (.valueRange shown r.name r.size)
      | _ => value.refuse fun shown => .modifier (.valueRange shown r.name r.size)
    else register.refuse fun shown => .modifier (.conditionKind shown)
  | _ => register.refuse fun shown => .modifier (.conditionKind shown)

end Circuit

/-- Turns a name that cannot be resolved into a problem of a modifier; other faults stay as they are. -/
def asModifier {α : Type} (wrap : ResolutionProblem → ModifierProblem) : Except Fault α → Except Fault α
  | .error (.problem (.resolution reason) _ _) => fail (.modifier (wrap reason))
  | x => x

namespace Action

def checkCondition (x : Instruction) (register value : Argument) : Action Condition := do
  let c ← circuit x.circuit
  lift (asModifier (.cannotCondition x.name) (c.checkCondition register value))

def checkOwnCondition (x : Instruction) : Action Unit := do
  match x.condition with
  | none => pure ()
  | some (r, n) => let _ ← checkCondition x (.register r) (.datum (.int n))

/-- Checks a qubit against a container: a gate only takes its own arguments. -/
def checkQubit (container : Container) (b : Bit) : Action Unit := do
  let c ← circuit (← circuitOf container)
  lift (c.checkQubit (.bit b))
  match container with
  | .circuit _ => pure ()
  | .gate i =>
    let x ← instruction i
    if b.among x.args then pure () else fail (.resolution (.qubitNotArgument b.text x.name))

/-- Checks a classical bit against a container: a gate takes none. -/
def checkClbit (container : Container) (b : Bit) : Action Unit := do
  match container with
  | .circuit c => lift ((← circuit c).checkClbit (.bit b))
  | .gate i => fail (.semantic (.classicalInGate (← instruction i).name))

/-- Checks an instruction against the container that it is about to be attached to. -/
def checkInstruction (container : Container) (x : Instruction) : Action Unit := do
  let home ← circuitOf container
  let c ← circuit home
  if x.circuit ≠ home then
    fail (.resolution (.otherCircuit x.name (← circuit x.circuit).label c.label))
  let (qubits, clbits) := x.splitArgs
  qubits.forM (checkQubit container)
  clbits.forM (checkClbit container)
  if !Bit.distinct (x.controlBits ++ qubits) then fail (.semantic (.actsTwice x.name))
  x.controls.forM fun r => lift (asModifier (.cannotControl x.name) (c.checkQuantum (.register r)))
  checkOwnCondition x

end Action

end QasmCircuit
