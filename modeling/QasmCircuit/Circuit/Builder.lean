import QasmCircuit.Circuit.Check

/-!
# Building circuits

Gates, barriers and measurements are applied to circuits and to gates under definition. An application
to registers is repeated for every position, in ascending order. All rows are checked before the first
one is attached.
-/

namespace QasmCircuit.Action

/-- Declares a register in a circuit, if its declaration can be written into the note. -/
def declareRegister (c : CircuitId) (r : Register) : Action Unit := do
  let x ← circuit c
  let text ← lift (Text.showing (Text.isShort r.size) r.text)
  note s!"Declaring {text} in {x.label}"
  putCircuit c { x with registers := x.registers ++ [r] }

/-- Declares registers in a circuit, one after the other. They are checked before the first one is declared. -/
def addRegisters (c : CircuitId) (regs : List Argument) : Action Unit := do
  let x ← circuit c
  let rec check (taken : List String) : List Argument → Except Fault (List Register)
    | [] => .ok []
    | .register r :: rest =>
      if taken.contains r.name then fail (.register (.alreadyDeclared r.name x.label))
      else do pure (r :: (← check (r.name :: taken) rest))
    | a :: _ => a.refuse fun shown => .register (.notRegister shown)
  let new ← lift (check (x.registers.map (·.name)) regs)
  new.forM (declareRegister c)

/-- A new circuit. Without a name it is numbered. -/
def newCircuit (name : Option Datum) (library : Library) (regs : List Argument) : Action CircuitId := do
  let name ← match name with
    | some n => pure n
    | none => modifyGet fun s => (Datum.text s!"circuit{s.numbered}", { s with numbered := s.numbered + 1 })
  let c ← modifyGet fun s => (s.circuits.size, { s with circuits := s.circuits.push ⟨name, library, [], []⟩ })
  addRegisters c regs
  pure c

def attachChecked (container : Container) (i : InstructionId) : Action Unit := do
  note s!"Attaching {(← instruction i).name} to {← nameOf container}"
  append container i

def attach (container : Container) (i : InstructionId) : Action Unit := do
  checkInstruction container (← instruction i)
  attachChecked container i

/-- Refuses a circuit in the place of an instruction, if it is not the one of the container. -/
def refuseCircuit (container : Container) (other : CircuitId) : Action Unit := do
  let home ← circuitOf container
  let name := (← circuit other).label
  if other ≠ home then fail (.resolution (.otherCircuit name name (← circuit home).label))

/-- The sizes of the registers among some operands, each one once. -/
def registerSizes (args : List Argument) : List Nat :=
  (args.filterMap fun
    | .register r => some r.size
    | _ => none).eraseDups

/-- Checks the registers among the operands of a broadcast application. -/
def checkOperand (c : Circuit) (name : String) : Argument → Except Fault Unit
  | .bit _ => .ok ()
  | .register r =>
    match r.kind with
    | .quantum => c.checkQuantum (.register r)
    | .classical => c.checkClassical (.register r)
    | .plain => Argument.refuse (.register r) fun shown => .semantic (.operandKind name shown)
  | a => a.refuse fun shown => .semantic (.operandKind name shown)

/-- One row of a broadcast application: registers give their bit at the index of the row. -/
def row (index : Nat) (args : List Argument) : Except Fault (List Bit) :=
  args.mapM fun
    | .bit b => .ok b
    | .register r => r.bit (.int index)
    | _ => .error .wrongKind

def broadcast (c : Circuit) (name : String) (args : List Argument) : Except Fault (List (List Bit)) := do
  args.forM (checkOperand c name)
  match registerSizes args with
  | [] => pure [← row 0 args]
  | [size] => (List.range size).mapM fun i => row i args
  | sizes => fail (.semantic (.sizes name (sizes.mergeSort fun a b => decide (a ≤ b))))

/-- Creates instructions, checks all of them and then attaches all of them. -/
def attachAll (container : Container) (xs : List Instruction) : Action (List InstructionId) := do
  xs.forM (checkInstruction container)
  let is ← xs.mapM create
  is.forM (attachChecked container)
  pure is

/-- What an application to some operands results in: a group if a register is among them. -/
def applied (args : List Argument) (is : List InstructionId) : Applied :=
  match args.any Argument.isRegister, is with
  | false, i :: _ => .single i
  | _, _ => .group is

/-- The value of a parameter of a gate, which has to be a finite number. -/
def finiteParam (gate : String) : Argument → Except Fault Float
  | .datum (.int n) => (Datum.int n).toReal
  | .datum (.real x) => if x.isFinite then .ok x else fail (.semantic (.paramKind gate (Decimal.text x)))
  | a => a.refuse fun shown => .semantic (.paramKind gate shown)

/-- The values of the parameters of a gate of a family. -/
def checkParams (f : Family) (params : List Argument) : Except Fault (List Float) :=
  if params.length ≠ f.params.length then
    fail (.semantic (.paramCount f.name f.params.length params.length))
  else params.mapM (finiteParam f.name)

/-- Applies a gate of the library. The parameters are asked for once the gate is known. -/
def applyGate (container : Container) (name : String) (args : List Argument)
    (params : Except Fault (List Argument)) : Action Applied := do
  let home ← circuitOf container
  let c ← circuit home
  let f ← lift (c.library.lookup name)
  let values ← lift (params >>= checkParams f)
  if (args.length : Int) ≠ f.arity then fail (.semantic (.operandCount name f.arity args.length))
  let rows ← lift (broadcast c name args)
  let is ← attachAll container (rows.map fun bits =>
    { operation := .atomic f, params := values, args := bits, circuit := home })
  pure (applied args is)

/-- The qubits of a list of qubits and quantum registers. There is no list as long as the largest registers. -/
def gatherQubits (c : Circuit) (problem : String → Problem) : List Argument → Except Fault (List Bit)
  | [] => .ok []
  | .bit b :: rest => do pure (b :: (← gatherQubits c problem rest))
  | .register r :: rest =>
    if r.isQuantum then do
      c.checkQuantum (.register r)
      if Register.lengthLimit ≤ r.size then throw .tooLarge
      pure (r.bits ++ (← gatherQubits c problem rest))
    else Argument.refuse (.register r) problem
  | a :: _ => a.refuse problem

/-- The operands of a barrier that names none: all qubits in reach. -/
def defaultOperands (container : Container) : Action (List Argument) := do
  match container with
  | .circuit c => pure (((← circuit c).registers.filter Register.isQuantum).map .register)
  | .gate i => pure ((← instruction i).args.map .bit)

def barrier (container : Container) (args : List Argument) : Action InstructionId := do
  let home ← circuitOf container
  let c ← circuit home
  let operands ← if args.isEmpty then defaultOperands container else pure args
  let bits ← lift (gatherQubits c (fun shown => .semantic (.barrierOperandKind shown)) operands)
  if bits.isEmpty then fail (.semantic .emptyBarrier)
  let i ← create { operation := .barrier, args := bits, circuit := home }
  attach container i
  pure i

/-- Measures qubits into classical bits. A gate cannot measure. -/
def measure (container : Container) (qubit clbit : Argument) : Action Applied := do
  match container with
  | .gate i => fail (.semantic (.measureInGate (← instruction i).name))
  | .circuit home =>
    let c ← circuit home
    let rows ← lift (broadcast c "measure" [qubit, clbit])
    let is ← attachAll container (rows.map fun bits =>
      { operation := .measure, args := bits, circuit := home })
    pure (applied [qubit, clbit] is)

def gateArgs (c : Circuit) (name : String) (args : List Argument) : Except Fault (List Bit) := do
  let bits ← gatherQubits c (fun shown => .semantic (.gateOperandKind name shown)) args
  if bits.isEmpty then fail (.semantic (.noQubits name))
  bits.forM fun b => c.checkQubit (.bit b)
  if !Bit.distinct bits then fail (.semantic (.listedTwice name))
  pure bits

/-- The name of a new gate, which has to be an identifier. -/
def gateName : Argument → Except Fault String
  | .datum (.text s) => if isIdentifier s then .ok s else fail (.semantic (.invalidName (Datum.text s).shown))
  | a => a.refuse fun shown => .semantic (.invalidName shown)

/-- A new gate with an empty body, which is not attached to anything. -/
def newComposite (home : CircuitId) (name : Argument) (args : List Argument)
    (params : Except Fault (List Argument)) : Action InstructionId := do
  let c ← circuit home
  let s ← lift (gateName name)
  if c.library.contains s then fail (.resolution (.libraryGate s))
  let bits ← lift (gateArgs c s args)
  let values ← lift (params >>= fun ps => ps.mapM Argument.toReal)
  create { operation := .composite s [] false, params := values, args := bits, circuit := home }

end QasmCircuit.Action
