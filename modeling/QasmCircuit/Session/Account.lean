import QasmCircuit.Circuit.Declaration
import QasmCircuit.Circuit.Operator
import QasmCircuit.Draft.Data
import QasmCircuit.Draft.OfProgram
import QasmCircuit.Library.Packaged
import QasmCircuit.Session.Access

/-!
# What a session tells about its values

Texts, programs, operators and properties of circuits, instructions and registers. Properties are given as
plain mappings.
-/

namespace QasmCircuit

def Datum.ofTexts (texts : List String) : Datum := .list (texts.map .text)

def Family.toDatum (f : Family) : Datum :=
  .record [("name", .text f.name), ("params", .ofTexts f.params), ("arity", .int f.arity),
    ("inverse_name", .text f.inverseName),
    ("inverse_params", .list (f.inverseParams.map fun (i, k) => .list [.int i, .int k])),
    ("controlled", (f.controlled.map Datum.text).getD .null), ("self_inverse", .bool f.selfInverse)]

def Circuit.bits (c : Circuit) : Datum :=
  .record [("qubits", .ofTexts (c.qubits.map Bit.text)), ("clbits", .ofTexts (c.clbits.map Bit.text))]

/-- Whether a value is a position of a register, which only numbers can be. -/
def Register.hasPosition (r : Register) (index : Datum) : Except Fault Bool :=
  match index.number? with
  | some x => .ok (Datum.numberAtMost (.inl 0) x && !Datum.numberAtMost (.inl r.size) x)
  | none => .error .wrongKind

namespace Session

/-- Where a property of a family is kept, if it is. The name of an inverse that is the family itself is kept as
its own name. -/
def familyPlace (owner : List String) (f : Family) (property : String) : List String :=
  owner ++ [f.name, if property = "inverse_name" && f.inverseName = f.name then "name" else property]

/-- Keeps the texts among the parts of a property at a place. -/
def keepTexts (place : List String) : Object → Object
  | .list m items => .list m (items.zipIdx.map fun (o, i) => match o.toDatum with
    | .text s => .keptText (place ++ [toString i]) s
    | _ => o)
  | .atom _ d => .atom (.kept place) d
  | o => o

/-- The properties of a family, whose texts and numbers are those that its library keeps. -/
def familyObject (new : Nat) (owner : List String) (f : Family) : Object :=
  match Object.ofDatum new [] f.toDatum with
  | .mapping m entries => .mapping m (entries.map fun (key, o) => (key, keepTexts (familyPlace owner f key.asName) o))
  | o => o

/-- Where the library of a circuit keeps its texts: the packaged one is the same for all circuits. -/
def libraryPlace (id : CircuitId) : Step (List String) := do
  let c ← act (Action.circuit id)
  pure (if c.library = Library.packaged then ["packaged"] else ["circuit", toString id])

/-- The properties of the family with a name in the library of a container. -/
def lookupFamily (home : Container) (name : Datum) : Step Value := do
  let id ← act (Action.circuitOf home)
  let c ← act (Action.circuit id)
  let f ← ofExcept (c.library.lookupDatum name)
  pure (.datum (familyObject (← newObject) (← libraryPlace id) f))

def instructionText (i : InstructionId) : Step String := act do Action.instructionText (← Action.depth) i

def sourceText (v : Value) : Step String := do
  match v with
  | .register _ r => pure r.text
  | .bit _ b => pure b.text
  | .circuit c => act (Action.circuitText c)
  | .instruction i => instructionText i
  | _ => stop .missingPart

/-- The texts of the bits of a register, or of the instructions of a circuit. -/
def partTexts (v : Value) : Step (List String) := do
  match v with
  | .register _ r => pure (r.bits.map Bit.text)
  | .circuit c => do (← act (Action.circuit c)).data.mapM instructionText
  | _ => stop .missingPart

/-- Whether a value is a position of a register. -/
def hasPosition (v : Value) (index : Datum) : Step Datum := do
  match v with
  | .register _ r => do pure (.bool (← ofExcept (r.hasPosition index)))
  | _ => stop .missingPart

/-- The properties of a register, and which of some values are positions of it. -/
def describe (v : Value) (check : List Datum) : Step Datum := do
  let len ← length v
  let source ← sourceText v
  let parts ← partTexts v
  let found ← check.mapM (hasPosition v)
  pure (.record [("len", .int len), ("qasm", .text source), ("bits", .ofTexts parts), ("check", .list found)])

/-- The program or the statement that a value stands for. -/
def draftOf (v : Value) : Step Draft := do
  match v with
  | .circuit c => do pure (← act (Action.toProgram c)).toDraft
  | .instruction i => do pure (← act (Action.toNode i)).toDraft
  | _ => stop .missingPart

/-- The text of the program or the statement that a value stands for. -/
def draftText (v : Value) : Step String := do
  match v with
  | .circuit c => do ofExcept (← act (Action.toProgram c)).render
  | .instruction i => do ofExcept (← act (Action.toNode i)).standalone
  | _ => stop .missingPart

def operator (v : Value) : Step (Matrix Complex) := do
  match v with
  | .circuit c => act (Action.circuitOperator c)
  | .instruction i => act (Action.gateOperator i)
  | _ => stop .missingPart

/-- Whether the product of some operators is the identity, the first one applied first. -/
def isIdentity (ms : List (Matrix Complex)) : Except Fault Bool := do
  (Grid.filled (← Action.product ms)).isIdentity Unitary.defaultTolerance

end Session

end QasmCircuit
