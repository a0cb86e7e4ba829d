import QasmCircuit.Circuit.Builder

/-!
# Gates by name

Every gate of the packaged library up to three qubits has a helper of its own, which takes the parameters
of the gate and then its operands.
-/

namespace QasmCircuit

/-- A helper: the gate it applies, and how many parameters and operands it takes. -/
structure Helper where
  gate : String
  params : Nat
  operands : Nat

def Helper.find? (name : String) : Option Helper :=
  if name = "iden" then some ⟨"id", 0, 1⟩
  else if ["x", "y", "z", "h", "s", "sdg", "t", "tdg", "sx", "sxdg"].contains name then some ⟨name, 0, 1⟩
  else if ["rx", "ry", "rz", "u1", "p"].contains name then some ⟨name, 1, 1⟩
  else if name = "u3" then some ⟨name, 3, 1⟩
  else if ["cx", "cy", "cz", "ch", "swap"].contains name then some ⟨name, 0, 2⟩
  else if ["crx", "cry", "crz", "cu1", "cp"].contains name then some ⟨name, 1, 2⟩
  else if name = "cu3" then some ⟨name, 3, 2⟩
  else if ["ccx", "cswap"].contains name then some ⟨name, 0, 3⟩
  else none

namespace Action

/-- Applies a gate, a barrier or a measurement by the name of its helper. -/
def callHelper (container : Container) (name : String) (args : List Argument) : Action Applied := do
  match name, args with
  | "barrier", args => pure (.single (← barrier container args))
  | "measure", [q, c] => measure container q c
  | "measure", _ => throw .wrongKind
  | name, args =>
    match Helper.find? name with
    | none => throw .missingPart
    | some h =>
      if args.length ≠ h.params + h.operands then throw .wrongKind
      applyGate container h.gate (args.drop h.params) (.ok (args.take h.params))

end Action

end QasmCircuit
