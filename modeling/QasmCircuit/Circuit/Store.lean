import QasmCircuit.Library
import QasmCircuit.Register

/-!
# Circuits and their instructions

Instructions are shared: a circuit, the body of a gate and a group can hold the same instruction, and a
change is seen through all of them. A `Store` therefore keeps every instruction and circuit under a number,
and circuits, bodies and groups are lists of numbers. An `Action` is a step on a store; a step that fails
keeps the changes made before it failed.

> `Store.instruction?_put`: what was put under a number is found under it.
-/

namespace QasmCircuit

/-- The number of an instruction. -/
abbrev InstructionId := Nat

/-- The number of a circuit. -/
abbrev CircuitId := Nat

/-- A classical register and the value that it must hold. -/
abbrev Condition := Register × Int

/-- What an instruction does. -/
inductive Operation where
  /-- A gate of a family. -/
  | atomic (family : Family)
  | barrier
  | measure
  /-- A gate with a body, and whether it has been inverted. -/
  | composite (name : String) (body : List InstructionId) (inverted : Bool)

/-- An operation with its operands and modifiers. -/
structure Instruction where
  operation : Operation
  params : List Float := []
  args : List Bit
  /-- The circuit whose registers the operands belong to. -/
  circuit : CircuitId
  condition : Option Condition := none
  controls : List Register := []

namespace Instruction

def name (x : Instruction) : String :=
  match x.operation with
  | .atomic f => f.name
  | .barrier => "barrier"
  | .measure => "measure"
  | .composite name _ _ => name

def isBarrier (x : Instruction) : Bool :=
  match x.operation with
  | .barrier => true
  | _ => false

/-- The qubits that control an instruction, register by register. -/
def controlBits (x : Instruction) : List Bit := x.controls.flatMap Register.bits

/-- All qubits of a gate, the controlling ones first. -/
def allBits (x : Instruction) : List Bit := x.controlBits ++ x.args

/-- The qubits and the classical bits among the operands. -/
def splitArgs (x : Instruction) : List Bit × List Bit :=
  match x.operation with
  | .measure => (x.args.take 1, x.args.drop 1)
  | _ => (x.args, [])

end Instruction

/-- A circuit: registers in the order of their declarations, and instructions in program order. -/
structure Circuit where
  name : Datum
  library : Library
  registers : List Register := []
  data : List InstructionId := []

namespace Circuit

def label (c : Circuit) : String := c.name.asName

def register? (c : Circuit) (name : String) : Option Register :=
  c.registers.find? fun r => r.name == name

/-- Whether a register is declared, with the same kind and size. -/
def hasRegister (c : Circuit) (r : Register) : Bool := c.register? r.name == some r

/-- All qubits of a circuit, register by register. -/
def qubits (c : Circuit) : List Bit := (c.registers.filter Register.isQuantum).flatMap Register.bits

/-- All classical bits of a circuit, register by register. -/
def clbits (c : Circuit) : List Bit := (c.registers.filter Register.isClassical).flatMap Register.bits

end Circuit

/-- All circuits and instructions, with the notes taken while they were built. -/
structure Store where
  instructions : Array Instruction := #[]
  circuits : Array Circuit := #[]
  /-- How many circuits were named by number. -/
  numbered : Nat := 0
  /-- Notes on every declaration and attachment, the latest one first. -/
  notes : List String := []

/-- What instructions are attached to. -/
inductive Container where
  | circuit (id : CircuitId)
  | gate (id : InstructionId)

/-- The result of an application: one instruction, or a group of them. -/
inductive Applied where
  | single (id : InstructionId)
  | group (ids : List InstructionId)

/-- A step on a store that can fail; what was changed before it failed stays changed. -/
abbrev Action := ExceptT Fault (StateM Store)

namespace Store

def instruction? (s : Store) (i : InstructionId) : Option Instruction := s.instructions[i]?

/-- Puts an instruction under a number that is in use. -/
def put (s : Store) (i : InstructionId) (x : Instruction) : Store :=
  { s with instructions := s.instructions.setIfInBounds i x }

theorem instruction?_put (s : Store) (i : InstructionId) (x : Instruction) (h : i < s.instructions.size) :
    (s.put i x).instruction? i = some x := by
  simp [put, instruction?, h]

theorem instruction?_put_ne (s : Store) (i j : InstructionId) (x : Instruction) (h : i ≠ j) :
    (s.put i x).instruction? j = s.instruction? j := by
  simp [put, instruction?, Array.getElem?_setIfInBounds_ne h]

end Store

namespace Action

def instruction (i : InstructionId) : Action Instruction := do
  match (← get).instruction? i with
  | some x => pure x
  | none => throw .missingItem

def circuit (c : CircuitId) : Action Circuit := do
  match (← get).circuits[c]? with
  | some x => pure x
  | none => throw .missingItem

/-- Puts an instruction under a number that is in use. -/
def put (i : InstructionId) (x : Instruction) : Action Unit := modify fun s => s.put i x

/-- Puts a circuit under a number that is in use. -/
def putCircuit (c : CircuitId) (x : Circuit) : Action Unit :=
  modify fun s => { s with circuits := s.circuits.setIfInBounds c x }

/-- Puts a new instruction under a new number. -/
def create (x : Instruction) : Action InstructionId :=
  modifyGet fun s => (s.instructions.size, { s with instructions := s.instructions.push x })

def note (text : String) : Action Unit := modify fun s => { s with notes := text :: s.notes }

/-- Runs a computation that needs no store. -/
def lift {α : Type} (x : Except Fault α) : Action α :=
  match x with
  | .ok a => pure a
  | .error e => throw e

/-- A bound on how deep gates can be nested, unless one contains itself. -/
def depth : Action Nat := do
  pure ((← get).instructions.size + 1)

def circuitOf : Container → Action CircuitId
  | .circuit c => pure c
  | .gate i => do pure (← instruction i).circuit

def nameOf : Container → Action String
  | .circuit c => do pure (← circuit c).label
  | .gate i => do pure (← instruction i).name

def append (container : Container) (i : InstructionId) : Action Unit := do
  match container with
  | .circuit c =>
    let x ← circuit c
    putCircuit c { x with data := x.data ++ [i] }
  | .gate g =>
    let x ← instruction g
    match x.operation with
    | .composite name body inverted => put g { x with operation := .composite name (body ++ [i]) inverted }
    | _ => throw .missingPart

/-- The body of a gate; no other instruction has one. -/
def body (i : InstructionId) : Action (List InstructionId) := do
  match (← instruction i).operation with
  | .composite _ body _ => pure body
  | _ => throw .missingPart

end Action

end QasmCircuit
