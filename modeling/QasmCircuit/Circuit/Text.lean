import QasmCircuit.Circuit.Modifier
import QasmCircuit.Program.Render

/-!
# The text of circuits

A circuit is written with its gates expanded: the body of a gate stands in the place of the gate. A
controlled gate is written as the gate of the library that has the controls among its qubits.
-/

namespace QasmCircuit

open Text

/-- The text of a condition in front of a statement. -/
def conditionText (condition : Option Condition) (text : String) : Except Fault String :=
  match condition with
  | none => .ok text
  | some (r, v) => showing (isShort v) s!"if({r.name}=={v}) {text}"

def callOnBits (name : String) (params : List Float) (bits : List Bit) : Except Fault String := do
  let texts ← params.mapM Term.realText
  pure (nameWithParams name texts ++ " " ++ join "," (bits.map Bit.text))

/-- The name under which a gate with a body is declared: a letter for each control in front, and a mark
behind an inverted one. -/
def definitionName (x : Instruction) (name : String) (inverted : Bool) : String :=
  String.ofList (List.replicate x.controlBits.length 'c') ++ name ++ (if inverted then "_dg" else "")

namespace Action

/-- The family that an atomic gate is written as, with its controls. -/
def writtenName (x : Instruction) (f : Family) : Action String := do
  let c ← circuit x.circuit
  let n := x.controlBits.length
  let g ← lift (controlledFamily c x.name n n f)
  pure g.name

/-- The statements of an instruction, one on each line. -/
def instructionText : Nat → InstructionId → Action String
  | 0, _ => throw .selfContaining
  | depth + 1, i => do
    let x ← instruction i
    match x.operation with
    | .atomic f =>
      let name ← writtenName x f
      let text ← lift (callOnBits name x.params x.allBits)
      pure ((← lift (conditionText x.condition text)) ++ ";")
    | .barrier => pure ("barrier " ++ join "," (x.args.map Bit.text) ++ ";")
    | .measure =>
      let text := "measure " ++ join " -> " (x.args.map Bit.text)
      pure ((← lift (conditionText x.condition text)) ++ ";")
    | .composite _ body _ =>
      let texts ← body.mapM (instructionText depth)
      pure (join "\n" (texts.filter fun t => !t.isEmpty))

def compositeCall (i : InstructionId) : Action String := do
  let x ← instruction i
  match x.operation with
  | .composite name _ inverted =>
    let text ← lift (callOnBits (definitionName x name inverted) x.params x.allBits)
    pure ((← lift (conditionText x.condition text)) ++ ";")
  | _ => throw .missingPart

def circuitText (c : CircuitId) : Action String := do
  let x ← circuit c
  let n ← depth
  let texts ← x.data.mapM (instructionText n)
  let lines := ["OPENQASM 2.0;", includeText "qelib1.inc"] ++ x.registers.map Register.text ++
    texts.filter fun t => !t.isEmpty
  pure (join "\n" lines ++ "\n")

end Action

end QasmCircuit
