import QasmCircuit.Text.Blank

/-!
# Problems with rendering

Values and nodes for which the language has no text.
-/

namespace QasmCircuit

/-- What can have no text. -/
inductive RenderProblem where
  | indexedForm
  | primitiveForm
  | notFinite (shown : String)
  | noForm (kind : String)
  | noFreeName (gate : String)
  | foreignQubits (gate : String) (bits : List String)
  | inexpressibleCondition (element gate : String)
deriving Repr, DecidableEq

namespace RenderProblem

def number (_ : RenderProblem) : Nat := 1

def message : RenderProblem → String
  | .indexedForm => "IndexedIdAST has no standalone textual form; render it through qasm2.render.render."
  | .primitiveForm =>
    "UniversalUnitaryAST has no standalone textual form; render it through qasm2.render.render."
  | .notFinite shown => s!"Parameter {shown} has no QASM representation."
  | .noForm kind => s!"No textual form defined for {kind}."
  | .noFreeName gate => s!"No free declaration name for gate '{gate}'."
  | .foreignQubits gate bits =>
    "Body of gate '" ++ gate ++ "' uses " ++ Text.join ", " bits ++ " which are not formal qubits."
  | .inexpressibleCondition element gate =>
    s!"Body element '{element}' of gate '{gate}' has a condition the declaration cannot express."

end RenderProblem

end QasmCircuit
