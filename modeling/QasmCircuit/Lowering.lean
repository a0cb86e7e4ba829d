import QasmCircuit.Circuit.Extend
import QasmCircuit.Program.OfTree
import QasmCircuit.Program.Validate
import QasmCircuit.Slots

/-!
# Circuits from programs

Every statement of a program becomes an instruction of a circuit. A call of a declared gate becomes a
gate with a body, in which parameters and arguments are replaced by those of the call. A problem that has
no place in the text is reported at the statement that it arose in.
-/

namespace QasmCircuit

namespace Program

/-- The gate of the library that a primitive gate stands for. -/
def libraryName (op : String) : Except Fault String :=
  if op = "U" then .ok "u3" else if op = "CX" then .ok "cx" else .error .missingName

/-- The gate, the values of the parameters and the operands of a call. -/
def callParts (env : Tree.Env) : Node → Except Fault (String × List Float × List Term)
  | .call name _ params operands _ => do pure (name, ← params.mapM (Term.resolve env), operands)
  | .primitive op first second _ _ => do
    let name ← libraryName op
    let refs ← (Node.primitiveOperands op first second).mapM Term.toQuantum
    let values ← (Node.primitiveParams op first).mapM (Term.resolve env)
    pure (name, values, refs.map .ref)
  | .gate name _ params args _ => do
    let values ← params.mapM fun p => (Datum.text p).toReal
    pure (name, values, args.map fun a => .value (.text a))
  | _ => .error .missingPart

def boundOperand (formals : List (String × Argument)) (t : Term) : Except Fault Argument := do
  let r ← t.reference
  match formals.reverse.lookup r.name with
  | some a => pure a
  | none => .error .missingName

/-- Values of parameters as arguments of an application. -/
def valueArguments (values : List Float) : List Argument := values.map fun x => .datum (.real x)

/-- The place of a statement; plain data and expressions have none. -/
def placeOf : Node → Except Fault Position
  | .call _ p _ _ _ => .ok p
  | .primitive _ _ _ _ p => .ok p
  | .measure _ _ p _ => .ok p
  | .barrier p _ => .ok p
  | .comment _ p => .ok p
  | .includes _ p => .ok p
  | .gate _ p _ _ _ => .ok p
  | .term (.ref r) => .ok r.position
  | .term _ => .error .missingPart

end Program

namespace Action

open Program

/-- Adds a statement of a declaration to a gate under construction. Gates inside are built by `nested`. -/
def buildStatement (nested : GateDef → List Argument → List Argument → Action InstructionId)
    (gates : List GateDef) (gate : InstructionId) (env : Tree.Env) (formals : List (String × Argument))
    (n : Node) : Action Unit := do
  match n with
  | .barrier _ operands =>
    let bits ← lift (operands.mapM (boundOperand formals))
    let _ ← barrier (.gate gate) bits
  | _ =>
    let (name, values, operands) ← lift (callParts env n)
    let bits ← lift (operands.mapM (boundOperand formals))
    match findGate? gates name with
    | some g => attach (.gate gate) (← nested g (valueArguments values) bits)
    | none => let _ ← applyGate (.gate gate) name bits (.ok (valueArguments values))

/-- A value that is bound to a parameter. -/
def boundValue : Argument → Datum
  | .datum d => d
  | _ => .null

/-- The gate of a declaration on some operands, with values for its parameters. It is not attached. -/
def buildComposite (home : CircuitId) (gates : List GateDef) :
    Nat → GateDef → List Argument → List Argument → Action InstructionId
  | 0, _, _, _ => throw .selfContaining
  | depth + 1, g, values, operands => do
    let i ← newComposite home (.datum (.text g.name)) operands (.ok values)
    let env := (g.params.zip values).reverse.map fun (p, v) => (p, boundValue v)
    g.body.forM (buildStatement (buildComposite home gates depth) gates i env (g.args.zip operands))
    pure i

/-- The rows of an application of a declared gate. -/
def gateRows (args : List Argument) : Except Fault (List (List Argument)) :=
  match Slots.pick? (registerSizes args) with
  | none => .ok [args]
  | some size =>
    (List.range size).mapM fun i => do
      let bits ← row i args
      pure (bits.map .bit)

/-- Applies a declared gate: all rows are built before the first one is attached. -/
def applyComposite (home : CircuitId) (gates : List GateDef) (g : GateDef) (values : List Float)
    (args : List Argument) : Action Applied := do
  let rows ← lift (gateRows args)
  let is ← rows.mapM (buildComposite home gates (gates.length + 1) g (valueArguments values))
  is.forM (attach (.circuit home))
  pure (applied args is)

/-- Puts the result of an application under a condition. -/
def conditionApplied (x : Applied) (register : Register) (value : Int) : Action Unit := do
  match x with
  | .single i => condition (← depth) i (.register register) (.datum (.int value))
  | .group is => conditionAll is (.register register) (.datum (.int value))

def operandOf (regs : List Register) (t : Term) : Except Fault Argument := do
  let r ← t.reference
  match regs.find? fun x => x.name == r.name with
  | none => .error .missingName
  | some x =>
    match r.index with
    | none => pure (.register x)
    | some i => pure (.bit (← x.bit (.int i)))

/-- The condition of a statement, with the register that it names. -/
def statementCondition (home : CircuitId) (regs : List Register) (n : Node) : Action (Option Condition) := do
  match guardOf? n with
  | none => pure none
  | some g => match regs.find? fun x => x.name == g.register with
    | none => throw .missingName
    | some r =>
      let _ ← lift ((← circuit home).checkCondition (.register r) (.datum (.int g.value)))
      pure (some (r, g.value))

def applyStatement (home : CircuitId) (regs : List Register) (gates : List GateDef) (n : Node) : Action Applied := do
  match n with
  | .measure qubit clbit _ _ =>
    let q ← lift (operandOf regs qubit)
    let c ← lift (operandOf regs clbit)
    measure (.circuit home) q c
  | _ =>
    let (name, values, operands) ← lift (callParts [] n)
    let args ← lift (operands.mapM (operandOf regs))
    match findGate? gates name with
    | some g => applyComposite home gates g values args
    | none => applyGate (.circuit home) name args (.ok (valueArguments values))

def lowerStatement (home : CircuitId) (regs : List Register) (gates : List GateDef) (n : Node) : Action Unit := do
  let guard ← statementCondition home regs n
  match n with
  | .barrier _ operands =>
    let args ← lift (operands.mapM (operandOf regs))
    let _ ← barrier (.circuit home) args
  | _ =>
    let x ← applyStatement home regs gates n
    match guard with
    | none => pure ()
    | some (r, v) => conditionApplied x r v

/-- Puts a register into a list; one of the same name gives up its place to it. -/
def putRegister (r : Register) : List Register → List Register
  | [] => [r]
  | x :: rest => if x.name == r.name then r :: rest else x :: putRegister r rest

def programRegisters (p : Program) : Except Fault (List Register) := do
  let quantum ← p.qregs.mapM fun (name, size) => Register.make .quantum (.datum (.text name)) (.datum (.int size))
  let classical ← p.cregs.mapM fun (name, size) => Register.make .classical (.datum (.text name)) (.datum (.int size))
  pure ((quantum ++ classical).foldl (fun acc r => putRegister r acc) [])

/-- Runs a step of a statement, whose place is given to problems that have none. -/
def atStatement (position : Position) (step : Action Unit) : Action Unit :=
  tryCatch step fun e => throw (e.relocate position)

def lower (lib : Library) (name : Option Datum) (p : Program) : Action CircuitId := do
  lift (p.validate lib)
  let regs ← lift (programRegisters p)
  let home ← newCircuit name lib (regs.map .register)
  p.body.forM fun n => do
    let position ← lift (placeOf n)
    note s!"Lowering statement at line {position.line}"
    atStatement position (lowerStatement home regs p.gates n)
  pure home

def ofText (lib : Library) (text : String) : Action CircuitId := do
  let p ← lift (Program.parse lib text)
  lower lib none p

end Action

end QasmCircuit
