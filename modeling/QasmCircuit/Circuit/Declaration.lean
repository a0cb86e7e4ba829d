import QasmCircuit.Circuit.Text

/-!
# Circuits as programs

A circuit becomes a program in which every gate with a body is declared. Gates that would be declared
alike share one declaration; a name that is taken gets a number behind it.
-/

namespace QasmCircuit

/-- The gates of the standard include file, whose names are not free. -/
def standardGates : List String :=
  ["u3", "u2", "u1", "cx", "id", "u0", "u", "p", "x", "y", "z", "h", "s", "sdg", "t", "tdg",
    "rx", "ry", "rz", "sx", "sxdg", "cz", "cy", "swap", "ch", "ccx", "cswap", "crx", "cry",
    "crz", "cu1", "cp", "cu3", "csx", "cu", "rxx", "rzz", "rccx", "rc3x", "c3x", "c3sqrtx", "c4x"]

def bitRef (kind : RefKind) (b : Bit) : Term := .ref ⟨kind, b.register.name, some b.index, .origin⟩

def paramTerms (params : List Float) : List Term := params.map fun p => .value (.real p)

def guardOf (condition : Option Condition) : Option Guard := condition.map fun (r, v) => ⟨r.name, v⟩

def callNode (name : String) (x : Instruction) : Node :=
  .call name .origin (paramTerms x.params) (x.allBits.map (bitRef .quantum)) (guardOf x.condition)

/-- Formal arguments of a declaration: the names that stand for bits. -/
abbrev FormalArgs := List (Bit × String)

namespace FormalArgs

/-- Gives a bit a name; a bit that has one keeps its place. -/
def insert (formals : FormalArgs) (b : Bit) (name : String) : FormalArgs :=
  match formals with
  | [] => [(b, name)]
  | (b', n) :: rest => if b'.same b then (b', name) :: rest else (b', n) :: insert rest b name

def nameOf? (formals : FormalArgs) (b : Bit) : Option String :=
  (List.find? (fun f => f.1.same b) formals).map (·.2)

/-- Names some bits with a letter and a number. -/
def number (letter : String) (bits : List Bit) (formals : FormalArgs) : FormalArgs :=
  (bits.zipIdx).foldl (fun acc (b, i) => insert acc b (letter ++ toString i)) formals

end FormalArgs

/-- The formal arguments of a gate: first its controls, then its arguments. -/
def formalArgs (x : Instruction) : FormalArgs :=
  FormalArgs.number "a" x.args (FormalArgs.number "c" x.controlBits [])

/-- The names that a gate can be declared under, in the order in which they are tried. -/
def candidateName (base : String) (attempt : Nat) : String :=
  if attempt = 0 then base else base ++ "_" ++ toString attempt

/-- Declares a gate under the first name that is free, or that already stands for the same declaration. -/
def settleName (lib : Library) (base : String) (declaration : String → GateDef) (table : List GateDef) :
    List Nat → Except Fault (String × List GateDef)
  | [] => fail (.render (.noFreeName base))
  | attempt :: rest =>
    let name := candidateName base attempt
    match findGate? table name with
    | some existing => do
      let old ← existing.render
      let new ← (declaration name).render
      if old = new then pure (name, table) else settleName lib base declaration table rest
    | none =>
      if standardGates.contains name || lib.contains name then settleName lib base declaration table rest
      else .ok (name, table ++ [declaration name])

namespace Action

/-- The operands of an element of a body as formal arguments. -/
def formalOperands (gate : String) (formals : FormalArgs) (bits : List Bit) : Except Fault (List Term) :=
  match bits.filter fun b => (formals.nameOf? b).isNone with
  | [] => .ok (bits.map fun b => .ref ⟨.quantum, (formals.nameOf? b).getD "", none, .origin⟩)
  | missing => fail (.render (.foreignQubits gate (missing.map Bit.text)))

/-- An element of a body as a statement on formal arguments. A gate inside the body is declared by `nested`. -/
def declareElement (nested : InstructionId → List GateDef → Action (String × List GateDef)) (gate : Instruction)
    (i : InstructionId) (x : Instruction) (operands : List Term) (table : List GateDef) :
    Action (Node × List GateDef) := do
  match x.operation with
  | .barrier => pure (.barrier .origin operands, table)
  | .measure => throw .missingPart
  | .atomic f =>
    if x.condition ≠ gate.condition then fail (.render (.inexpressibleCondition x.name gate.name))
    let name ← writtenName x f
    pure (.call name .origin (paramTerms x.params) operands none, table)
  | .composite .. =>
    if x.condition ≠ gate.condition then fail (.render (.inexpressibleCondition x.name gate.name))
    let (name, table) ← nested i table
    pure (.call name .origin (paramTerms x.params) operands none, table)

/-- The statements of a declaration. Gates inside the body are declared by `nested`. -/
def declareBody (nested : InstructionId → List GateDef → Action (String × List GateDef)) (gate : Instruction)
    (formals : FormalArgs) : List InstructionId → List GateDef → Action (List Node × List GateDef)
  | [], table => pure ([], table)
  | i :: rest, table => do
    let x ← instruction i
    let operands ← lift (formalOperands gate.name formals x.allBits)
    let (node, table) ← declareElement nested gate i x operands table
    let (nodes, table) ← declareBody nested gate formals rest table
    pure (node :: nodes, table)

/-- The declaration of a gate with a body under some name. -/
def declarationOf (x : Instruction) (formals : FormalArgs) (statements : List Node) (name : String) : GateDef :=
  { name
    params := (List.range x.params.length).map fun k => "p" ++ toString k
    args := formals.map (·.2)
    body := statements }

/-- Adds the declaration of a gate, and of the gates it calls, to a table; gives the name it has there. -/
def declare : Nat → InstructionId → List GateDef → Action (String × List GateDef)
  | 0, _, _ => throw .selfContaining
  | depth + 1, i, table => do
    let x ← instruction i
    match x.operation with
    | .composite name body inverted =>
      let formals := formalArgs x
      let (statements, table) ← declareBody (declare depth) x formals body table
      let lib := (← circuit x.circuit).library
      lift (settleName lib (definitionName x name inverted) (declarationOf x formals statements) table
        (List.range (table.length + 2)))
    | _ => throw .missingPart

def gateDef (i : InstructionId) : Action GateDef := do
  let (name, table) ← declare (← depth) i []
  match findGate? table name with
  | some g => pure g
  | none => throw .missingName

def toNode (i : InstructionId) : Action Node := do
  let x ← instruction i
  match x.operation, x.args with
  | .atomic f, _ => pure (callNode (← writtenName x f) x)
  | .barrier, args => pure (.barrier .origin (args.map (bitRef .quantum)))
  | .measure, [q, c] =>
    pure (.measure (bitRef .quantum q) (bitRef .classical c) .origin (guardOf x.condition))
  | .measure, _ => throw .missingItem
  | .composite name _ inverted, _ => pure (callNode (definitionName x name inverted) x)

/-- A statement of a circuit, with the declarations that it needs. -/
def programStatement (i : InstructionId) (table : List GateDef) : Action (Node × List GateDef) := do
  let x ← instruction i
  match x.operation with
  | .composite .. => do
    let (name, table) ← declare (← depth) i table
    pure (callNode name x, table)
  | _ => pure (← toNode i, table)

/-- The statements of a circuit, with the declarations of its gates. -/
def programBody : List InstructionId → List GateDef → Action (List Node × List GateDef)
  | [], table => pure ([], table)
  | i :: rest, table => do
    let (node, table) ← programStatement i table
    let (nodes, table) ← programBody rest table
    pure (node :: nodes, table)

def declarations (kind : RegisterKind) (rs : List Register) : List (String × Int) :=
  (rs.filter fun r => r.kind == kind).map fun r => (r.name, (r.size : Int))

def toProgram (c : CircuitId) : Action Program := do
  let x ← circuit c
  let (body, gates) ← programBody x.data []
  pure { includes := [⟨"qelib1.inc", .origin⟩]
         qregs := declarations .quantum x.registers
         cregs := declarations .classical x.registers
         gates
         body }

end Action

end QasmCircuit
