/-!
# Problems with names

Names of registers, qubits and gates that stand for nothing, or for something of another kind.
-/

namespace QasmCircuit

/-- What can be wrong with a name. -/
inductive ResolutionProblem where
  | notClassical (name : String)
  | notQuantum (name : String)
  | bitKind (label shown : String)
  | bitRole (bit label circuit : String)
  | unknownClassical (name : String)
  | unknownQuantum (name : String)
  | quantumNotIn (shown circuit : String)
  | classicalNotIn (shown circuit : String)
  | registerNotIn (name circuit : String)
  | otherCircuit (name owner circuit : String)
  | notArgument (name gate : String)
  | qubitNotArgument (bit gate : String)
  | unknownGate (name : String)
  | unresolvedInclude (path : String)
  | noUnitary (name : String)
  | duplicateGate (name : String)
  | libraryGate (name : String)
deriving Repr, DecidableEq

namespace ResolutionProblem

def number : ResolutionProblem → Nat
  | .notClassical .. | .notQuantum .. | .bitKind .. | .bitRole .. => 1
  | .unknownClassical .. | .unknownQuantum .. | .quantumNotIn .. | .classicalNotIn .. | .registerNotIn ..
  | .otherCircuit .. => 2
  | .notArgument .. | .qubitNotArgument .. => 3
  | .unknownGate .. | .unresolvedInclude .. | .noUnitary .. => 4
  | .duplicateGate .. | .libraryGate .. => 5

def message : ResolutionProblem → String
  | .notClassical name => s!"'{name}' is not a classical register."
  | .notQuantum name => s!"'{name}' is not a quantum register."
  | .bitKind label shown => s!"Expected a {label}, got {shown}."
  | .bitRole bit label circuit => s!"{bit} is not a {label} of circuit '{circuit}'."
  | .unknownClassical name => s!"Unknown classical register '{name}'."
  | .unknownQuantum name => s!"Unknown quantum register '{name}'."
  | .quantumNotIn shown circuit => s!"Quantum register {shown} is not in circuit '{circuit}'."
  | .classicalNotIn shown circuit => s!"Classical register {shown} is not in circuit '{circuit}'."
  | .registerNotIn name circuit => s!"Register '{name}' is not in circuit '{circuit}'."
  | .otherCircuit name owner circuit => s!"'{name}' belongs to circuit '{owner}', not '{circuit}'."
  | .notArgument name gate => s!"'{name}' is not an argument of gate '{gate}'."
  | .qubitNotArgument bit gate => s!"Qubit {bit} is not an argument of gate '{gate}'."
  | .unknownGate name => s!"Unknown gate '{name}'."
  | .unresolvedInclude path => s!"include '{path}' cannot be resolved; only qelib1.inc is built in."
  | .noUnitary name => s!"No unitary is defined for gate '{name}'."
  | .duplicateGate name => s!"Duplicate gate definition '{name}'."
  | .libraryGate name => s!"Gate '{name}' is already defined by the gate library."

end ResolutionProblem

end QasmCircuit
