/-!
# Problems with registers

Declarations that clash, indices out of range, and values that are no register.
-/

namespace QasmCircuit

/-- What can be wrong with a register or an index into one. -/
inductive RegisterProblem where
  | duplicate (name : String)
  | alreadyDeclared (name circuit : String)
  | declaredDifferently (name circuit : String)
  | qubitRange (index : Int) (name : String)
  | clbitRange (index : Int) (name : String)
  | indexKind (name : String)
  | indexRange (index : Int) (name : String) (size : Nat)
  | noSize (name : String)
  | invalidName (shown : String)
  | invalidSize (name shown : String)
  | notRegister (shown : String)
deriving Repr, DecidableEq

namespace RegisterProblem

def number : RegisterProblem → Nat
  | .duplicate .. | .alreadyDeclared .. | .declaredDifferently .. => 1
  | .qubitRange .. | .clbitRange .. | .indexKind .. | .indexRange .. => 2
  | .noSize .. | .invalidName .. | .invalidSize .. | .notRegister .. => 3

def message : RegisterProblem → String
  | .duplicate name => s!"Duplicate register '{name}'."
  | .alreadyDeclared name circuit => s!"Register '{name}' is already declared in circuit '{circuit}'."
  | .declaredDifferently name circuit => s!"Register '{name}' is declared differently in circuit '{circuit}'."
  | .qubitRange index name => s!"Qubit index {index} out of range for register '{name}'."
  | .clbitRange index name => s!"Classical index {index} out of range for register '{name}'."
  | .indexKind name => s!"Index into register '{name}' must be an integer."
  | .indexRange index name size => s!"Index {index} out of range for register '{name}' of size {size}."
  | .noSize name => s!"Register '{name}' must have size greater than zero."
  | .invalidName shown => s!"Invalid register name {shown}."
  | .invalidSize name shown => s!"Register '{name}' must have a positive integer size, got {shown}."
  | .notRegister shown => s!"Expected a register, got {shown}."

end RegisterProblem

end QasmCircuit
