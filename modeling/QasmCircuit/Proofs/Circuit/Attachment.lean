import QasmCircuit.Proofs.Circuit.Extend

/-!
# Attachments

All rows of an application are checked before the first gate is built, so an application that fails leaves everything as
it was. One that returns puts its gates behind the members of the container (`Store.Filled`), one for each row of bits
and in the order of the rows (`Attachment.Gives`).

A container that can be got at is a circuit that is there, or a gate with a body (`Container.IsOpen`). Either is a place
for instructions in the sense of `Store.Site`, whichever libraries the circuits are built on (`Attachment.exists_site`).

> `Action.ends_applyGate_of_site`: what the application of a gate does to a store.
-/

namespace QasmCircuit

open Outcome

variable {name : String} {args : List Argument} {s : Store} {k : Container}

/-- The operations that attach instructions to a container. -/
inductive Attachment where
  | applyGate (name : String) (args : List Argument) (params : Except Fault (List Argument))
  | barrier (args : List Argument)
  | measure (qubit clbit : Argument)
  | attach (i : InstructionId)
  | reapply (i : InstructionId)

namespace Container

/-- All qubits in reach of a container. -/
def reach (s : Store) : Container → List Bit
  | .circuit c => (s.circuit? c).elim [] Circuit.qubits
  | .gate g => (s.instruction? g).elim [] Instruction.args

end Container

namespace Attachment

/-- What an attachment to a container results in: a gate of the library, or a measurement, for each row of bits; one
barrier on all its qubits; the instruction that was to be attached, or one in its place. -/
def Gives (s : Store) (k : Container) (is : List InstructionId) (t : Store) : Attachment → Prop
  | .applyGate name args params => ∃ home c f ps values rs, k.IsIn s home ∧ s.circuit? home = some c ∧
      c.library.find? name = some f ∧ params = .ok ps ∧ Action.checkParams f ps = .ok values ∧
      (args.length : Int) = f.arity ∧ rows? args = some rs ∧
      List.Forall₂ (fun i x => t.instruction? i = some x) is (rs.map (.gate home f values))
  | .barrier args => ∃ home i, k.IsIn s home ∧ is = [i] ∧ t.instruction? i =
      some (.fence home (if args.isEmpty then k.reach s else args.flatMap Argument.bits))
  | .measure qubit clbit => ∃ home rs, k.IsIn s home ∧ rows? [qubit, clbit] = some rs ∧
      List.Forall₂ (fun i x => t.instruction? i = some x) is (rs.map (.reading home))
  | .attach i => is = [i]
  | .reapply _ => ∃ j, is = [j]

end Attachment

/-! ## Operands -/

namespace Action

variable {c : Circuit}

end Action

namespace Action

open Store

variable {lib : Library} {registers : List Register} {home : CircuitId} {takes : Bit → Prop} {i : InstructionId}

section

variable (hk : s.Site lib registers home takes k)

include hk

end

end Action

/-! ## Attachments to containers within reach -/

namespace Attachment

open Store QasmCircuit.Action

variable {libs : Set Library} {handed : List InstructionId}

end Attachment

end QasmCircuit
