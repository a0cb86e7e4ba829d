import QasmCircuit.Problem.Resolution

/-!
# Problems with modifiers

Inverting, conditioning and controlling where it cannot be done. A modifier that fails because a name
cannot be resolved keeps that problem as its reason.
-/

namespace QasmCircuit

/-- What can be wrong with a modifier. -/
inductive ModifierProblem where
  | valueRange (shown register : String) (size : Nat)
  | notUnitary (name : String)
  | controlKind (name : String)
  | cannotCondition (name : String) (reason : ResolutionProblem)
  | cannotControl (name : String) (reason : ResolutionProblem)
  | controlOverlap (bit name : String)
  | barrierCondition
  | barrierControl
  | measureControl
  | conditioned (name : String)
  | noControlledForm (name : String) (controls : Nat)
  | conditionKind (shown : String)
  | notInvertible (circuit name : String)
  | noMatrix (name : String)
deriving Repr, DecidableEq

namespace ModifierProblem

def number (_ : ModifierProblem) : Nat := 1

def reason? : ModifierProblem → Option ResolutionProblem
  | .cannotCondition _ reason | .cannotControl _ reason => some reason
  | _ => none

def message : ModifierProblem → String
  | .valueRange shown register size =>
    s!"Value {shown} cannot be held by classical register '{register}' of size {size}."
  | .notUnitary name => s!"'{name}' is not unitary and cannot be inverted."
  | .controlKind name => s!"Controls of '{name}' must be quantum registers."
  | .cannotCondition name reason => s!"Cannot condition '{name}': {reason.message}"
  | .cannotControl name reason => s!"Cannot control '{name}': {reason.message}"
  | .controlOverlap bit name => s!"Qubit {bit} cannot both control and be acted on by '{name}'."
  | .barrierCondition => "A barrier cannot be classically conditioned."
  | .barrierControl => "A barrier cannot be controlled."
  | .measureControl => "A measurement cannot be controlled."
  | .conditioned name => s!"Classically conditioned '{name}' has no unitary matrix."
  | .noControlledForm name controls =>
    s!"Gate '{name}' has no library form with {controls} control qubit(s)."
  | .conditionKind shown => s!"Conditions need a classical register, got {shown}."
  | .notInvertible circuit name => s!"Circuit '{circuit}' contains '{name}' and cannot be inverted."
  | .noMatrix name => s!"'{name}' has no unitary matrix."

end ModifierProblem

end QasmCircuit
