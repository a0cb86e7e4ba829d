import QasmCircuit.Program
import QasmCircuit.Library

/-!
# Checks of programs

What a program has to satisfy before a circuit is made of it: the version and the includes are known,
every call fits the signature of its gate, the registers of one call have one size, and no statement names
a qubit twice.
-/

namespace QasmCircuit.Program

/-- The number of parameters and of qubits of a gate. -/
structure Signature where
  params : Nat
  qubits : Int
deriving Repr, DecidableEq

def primitiveSignature? (name : String) : Option Signature :=
  if name = "U" then some ⟨3, 1⟩ else if name = "CX" then some ⟨0, 2⟩ else none

/-- The signature of a gate: of a declared one, of one of the library, or of a primitive one. -/
def signature? (lib : Library) (gates : List GateDef) (name : String) : Option Signature :=
  match findGate? gates name with
  | some g => some ⟨g.params.length, g.args.length⟩
  | none =>
    match lib.find? name with
    | some f => some ⟨f.params.length, f.arity⟩
    | none => primitiveSignature? name

/-- The size of a register in a list of declarations, of which the last one counts. -/
def sizeOf? (regs : List (String × Int)) (name : String) : Option Int := regs.reverse.lookup name

/-- Some numbers in ascending order, each one once. -/
def sortedSizes (sizes : List Int) : List Int :=
  sizes.eraseDups.mergeSort fun a b => decide (a ≤ b)

/-- Checks that no reference is repeated, on its own or as part of a whole register. -/
def checkDistinct (name : String) (position : Position) (whole : List String)
    (seen : List (String × Option Int)) : List Ref → Except Fault Unit
  | [] => .ok ()
  | r :: rest =>
    if seen.contains (r.name, r.index) || (r.index.isSome && whole.contains r.name) then
      failAt (.semantic (.usedTwice name r.text)) position
    else checkDistinct name position whole ((r.name, r.index) :: seen) rest

def distinctOperands (name : String) (position : Position) (operands : List Ref) : Except Fault Unit :=
  checkDistinct name position ((operands.filter fun r => r.index.isNone).map (·.name)) [] operands

/-- Checks a call. The sizes of registers matter only where registers can be operands. -/
def checkCall (lib : Library) (gates : List GateDef) (qregs : List (String × Int)) (name : String)
    (position : Position) (params : Nat) (count : Nat) (operands : Except Fault (List Ref)) :
    Except Fault Unit :=
  match signature? lib gates name with
  | none => failAt (.resolution (.unknownGate name)) position
  | some s =>
    if params ≠ s.params then failAt (.semantic (.paramCount name s.params params)) position
    else if (count : Int) ≠ s.qubits then failAt (.semantic (.operandCount name s.qubits count)) position
    else do
      let refs ← operands
      distinctOperands name position refs
      let sizes := sortedSizes ((refs.filter fun r => r.index.isNone).filterMap fun r => sizeOf? qregs r.name)
      if 1 < sizes.length then failAt (.semantic (.callSizes name (sizes.map toString))) position

/-- Checks the calls among statements; other statements are left to the caller. -/
def checkGateStatement (lib : Library) (gates : List GateDef) (qregs : List (String × Int)) : Node → Except Fault Unit
  | .call name p params operands _ =>
    checkCall lib gates qregs name p params.length operands.length (operands.mapM Term.reference)
  | .primitive op first second _ p => do
    let refs ← (Node.primitiveOperands op first second).mapM Term.toQuantum
    checkCall lib gates qregs op p (Node.primitiveParams op first).length refs.length (.ok refs)
  | _ => .ok ()

/-- Checks that the registers of a measurement have one size. -/
def checkMeasure (p : Program) (qubit clbit : Term) (position : Position) : Except Fault Unit := do
  let q ← qubit.reference
  if q.index.isNone then
    let c ← clbit.reference
    if c.index.isNone then
      match sizeOf? p.qregs q.name, sizeOf? p.cregs c.name with
      | some m, some n => if m ≠ n then failAt (.semantic (.measureSizes q.name c.name)) position
      | _, _ => pure ()

def checkStatement (lib : Library) (p : Program) : Node → Except Fault Unit
  | .barrier position operands => do
    let refs ← operands.mapM Term.reference
    distinctOperands "barrier" position refs
  | .measure qubit clbit position _ => checkMeasure p qubit clbit position
  | n => checkGateStatement lib p.gates p.qregs n

def checkInclude (i : Include) : Except Fault Unit :=
  if i.path = "qelib1.inc" then .ok () else failAt (.resolution (.unresolvedInclude i.path)) i.position

def validate (lib : Library) (p : Program) : Except Fault Unit := do
  if p.version ≠ "2.0" then fail (.source (.version p.version))
  p.includes.forM checkInclude
  p.gates.forM fun g => g.body.forM (checkGateStatement lib p.gates [])
  p.body.forM (checkStatement lib p)

end QasmCircuit.Program
