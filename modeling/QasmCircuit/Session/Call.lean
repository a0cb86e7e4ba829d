import QasmCircuit.Circuit.Helper
import QasmCircuit.Session.Account
import QasmCircuit.Session.Modify

/-!
# Operations by name

The values of a session have operations that can be called by their names. A name that a value does not have is
a missing part. A wrong number of arguments, or a property in the place of an operation, is a value of the wrong
kind.
-/

namespace QasmCircuit

def Circuit.check (c : Circuit) (what : String) (args : List Argument) : Except Fault Unit :=
  match what, args with
  | "qreg", [a] => c.checkQuantum a
  | "creg", [a] => c.checkClassical a
  | "qubit", [a] => c.checkQubit a
  | "clbit", [a] => c.checkClbit a
  | "condition", [r, v] => do let _ ← c.checkCondition r v
  | what, _ =>
    .error (if ["qreg", "creg", "qubit", "clbit", "condition"].contains what then .wrongKind else .missingPart)

namespace Session

/-- An operation that gives nothing. -/
def silent (a : Step Unit) : Step Value := do
  a
  plain .null

/-- Whether the circuit of a container has a register. -/
def reaches (home : Container) (v : Value) : Step Value := do
  let c ← act do Action.circuit (← Action.circuitOf home)
  plain (.bool (← hasRegister c v))

def applyGate (home : Container) (name : Datum) (operands : List Argument)
    (params : Except Fault (List Argument)) : Step Value := do
  match name with
  | .text gate => do ofApplied (← act (Action.applyGate home gate operands params))
  | _ => do
    let c ← act do Action.circuit (← Action.circuitOf home)
    let _ ← ofExcept (c.library.lookupDatum name)
    stop .wrongKind

/-- The names of the operations and properties that every container has. -/
def containerNames : List String :=
  ["apply_gate", "attach", "has_register", "lookup", "barrier", "measure", "name", "circuit"]

/-- The names of the operations and properties that a circuit has. -/
def circuitNames : List String :=
  ["inverse", "extend", "add_register", "qasm", "to_matrix", "to_ast", "check_qreg", "check_creg", "check_qubit",
    "check_clbit", "check_condition", "regs", "data", "library", "qubits", "clbits"]

/-- The names of the operations and properties that every instruction has. -/
def instructionNames : List String :=
  ["copy", "inverse", "c_if", "q_if", "reapply", "qasm", "to_ast", "name", "params", "args", "circuit", "condition",
    "controls", "control_bits"]

/-- Whether a container has an operation or a property of some name. -/
def containerHas (name : String) : Bool := containerNames.contains name || (Helper.find? name).isSome

/-- Whether a value has an operation or a property of some name. -/
def has (v : Value) (name : String) : Step Bool := do
  match v with
  | .circuit _ => pure (circuitNames.contains name || containerHas name)
  | .instruction i => match (← act (Action.instruction i)).operation with
    | .composite _ _ _ =>
      pure (instructionNames.contains name || containerHas name ||
        ["to_matrix", "qasm_call", "to_gate_def", "declare", "definition_name", "body", "inverse_flag"].contains name)
    | .atomic _ => pure (instructionNames.contains name || ["to_matrix", "qasm_name", "family"].contains name)
    | _ => pure (instructionNames.contains name)
  | .set _ => pure (["add", "inverse", "c_if", "q_if", "instructions"].contains name)
  | .register _ _ => pure (["qasm", "check_range", "name", "size", "kind"].contains name)
  | .bit _ _ => pure (["qasm", "register", "index"].contains name)
  | _ => pure false

/-- Calls an operation of a circuit or of a gate with a body. -/
def callContainer (home : Container) (name : String) (args : List Value) : Step Value := do
  let operands ← args.mapM argument
  match name, args, operands with
  | "apply_gate", _, .datum gate :: rest => applyGate home gate rest (.ok [])
  | "attach", [v], _ => attach home v
  | "has_register", [v], _ => reaches home v
  | _, _, _ =>
    if ["apply_gate", "attach", "has_register", "lookup", "name", "circuit"].contains name then stop .wrongKind
    else do ofApplied (← act (Action.callHelper home name operands))

def callCircuit (c : CircuitId) (name : String) (args : List Value) : Step Value := do
  let operands ← args.mapM argument
  match name, args with
  | "inverse", [] => inverse (.circuit c)
  | "extend", [other] => addTo (.circuit c) other
  | "add_register", _ => silent (act (Action.addRegisters c operands))
  | "qasm", [] => do text (← sourceText (.circuit c))
  | "to_matrix", [] => do
    let m ← operator (.circuit c)
    pure (.matrix (← newObject) m)
  | _, _ =>
    if name.startsWith "check_" then
      silent do ofExcept ((← act (Action.circuit c)).check (name.drop 6).copy operands)
    else if circuitNames.contains name then stop .wrongKind
    else callContainer (.circuit c) name args

def callInstruction (i : InstructionId) (name : String) (args : List Value) : Step Value := do
  let v := Value.instruction i
  let operands ← args.mapM argument
  match name, args, operands with
  | "copy", [], _ => copy v
  | "inverse", [], _ => inverse v
  | "c_if", _, [r, x] => do
    condition v r x
    pure v
  | "q_if", _, _ => do
    control v operands
    pure v
  | "reapply", [target], _ => reapply i target
  | "qasm", [], _ => do text (← sourceText v)
  | "qasm_call", [], _ => do text (← act (Action.compositeCall i))
  | "to_matrix", [], _ => do
    let m ← operator v
    pure (.matrix (← newObject) m)
  | _, _, _ =>
    if !instructionNames.contains name && containerHas name then callContainer (.gate i) name args
    else stop .wrongKind

def callOther (v : Value) (name : String) (args : List Value) : Step Value := do
  let operands ← args.mapM argument
  match v, name, args, operands with
  | .set s, "add", [x], _ => silent (addMember s x)
  | .set _, "inverse", [], _ => inverse v
  | .set _, "c_if", _, [r, x] => do
    condition v r x
    pure v
  | .set _, "q_if", _, _ => do
    control v operands
    pure v
  | .register _ r, "qasm", [], _ => text r.text
  | .register _ r, "check_range", _, [.datum index] => do plain (.bool (← ofExcept (r.hasPosition index)))
  | .bit _ b, "qasm", [], _ => text b.text
  | _, _, _, _ => stop .wrongKind

/-- Calls an operation of a value by its name. The arguments are asked for once the operation is known. -/
def call (v : Value) (name : String) (args : Step (List Value)) : Step Value := do
  if !(← has v name) then stop .missingPart
  let args ← args
  match v with
  | .circuit c => callCircuit c name args
  | .instruction i => callInstruction i name args
  | _ => callOther v name args

end Session

end QasmCircuit
