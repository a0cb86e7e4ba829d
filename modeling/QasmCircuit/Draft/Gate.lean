import QasmCircuit.Draft

/-!
# Declarations that grow

The body of a declared gate is put together step by step: in place, or as a new declaration.
-/

namespace QasmCircuit.Draft

def withField (d : Draft) (name : String) (value : Draft) : Draft :=
  match d with
  | .node kind fields => .node kind (fields.map fun (n, old) => (n, if n = name then value else old))
  | d => d

/-- A declaration with more statements at its end. -/
def extend (gate : Draft) (statements : List Draft) : Except Fault Draft := do
  if !gate.isKind .gate then throw .missingPart
  match ← gate.get "body" with
  | .list body => pure (gate.withField "body" (.list (body ++ statements)))
  | _ => throw .missingPart

/-- A new declaration with one more statement at its end. Its formal names and its body are lists. -/
def plus (gate statement : Draft) : Except Fault Draft := do
  if !gate.isKind .gate then throw .wrongKind
  let params ← gate.itemsOf "params"
  let args ← gate.itemsOf "qargs"
  let body ← gate.itemsOf "body"
  pure (((gate.withField "params" (.list params)).withField "qargs" (.list args)).withField "body"
    (.list (body ++ [statement])))

end QasmCircuit.Draft
