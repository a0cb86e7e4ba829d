import QasmCircuit.Text.Blank

/-!
# Problems with the meaning of a program

Expressions without a value, calls that do not fit the signature of their gate, registers that do not fit
each other, qubits used twice, and gates that would not be unitary.
-/

namespace QasmCircuit

/-- What can be wrong with a parameter expression. -/
inductive ExpressionProblem where
  | malformedNumber
  | numberToken
  | invalidNumber (text : String)
  | functionToken
  | unexpectedToken (kind : String)
  | malformedReference
  | operandCount (label : String)
  | divisionByZero
  | overflow
  | notReal
  | negationCount
  | malformedCall
  | forbiddenFunction (name : String)
  | undefinedAt (name argument : String)
  | wrapperCount (label : String)
  | unsupported (label : String)
  | unknownIdentifier (name : String)
  | unknownParameter (name gate : String)
deriving Repr, DecidableEq

def ExpressionProblem.message : ExpressionProblem → String
  | .malformedNumber => "Malformed numeric literal."
  | .numberToken => "Expected numeric token."
  | .invalidNumber text => s!"Invalid numeric literal '{text}'."
  | .functionToken => "Function identifier must be a token."
  | .unexpectedToken kind => s!"Unexpected token '{kind}' in expression."
  | .malformedReference => "Malformed parameter reference."
  | .operandCount label => s!"Operator '{label}' requires exactly two operands."
  | .divisionByZero => "Division by zero in expression."
  | .overflow => "Expression overflows a float."
  | .notReal => "Expression has no real value."
  | .negationCount => "Unary minus requires exactly one operand."
  | .malformedCall => "Malformed function call."
  | .forbiddenFunction name => s!"Function '{name}' is not permitted."
  | .undefinedAt name argument => s!"{name}({argument}) is undefined."
  | .wrapperCount label => s!"Expression node '{label}' must have a single child."
  | .unsupported label => s!"Unsupported expression node '{label}'."
  | .unknownIdentifier name => s!"Unknown identifier '{name}' in expression."
  | .unknownParameter name gate => s!"Unknown parameter '{name}' in gate '{gate}'."

/-- What can be wrong with the use of gates and operands. -/
inductive SemanticProblem where
  | expression (problem : ExpressionProblem)
  | repeatedParameter (gate : String)
  | repeatedArgument (gate : String)
  | paramCount (gate : String) (expected received : Nat)
  | operandCount (gate : String) (expected : Int) (received : Nat)
  | paramKind (gate shown : String)
  | invalidName (shown : String)
  | gateOperandKind (gate shown : String)
  | noQubits (gate : String)
  | barrierOperandKind (shown : String)
  | emptyBarrier
  | operandKind (name shown : String)
  | sizes (name : String) (found : List Nat)
  | callSizes (gate : String) (found : List String)
  | measureSizes (qubits clbits : String)
  | listedTwice (gate : String)
  | actsTwice (name : String)
  | usedTwice (name operand : String)
  | classicalInGate (gate : String)
  | measureInGate (gate : String)
deriving Repr, DecidableEq

namespace SemanticProblem

def number : SemanticProblem → Nat
  | .expression _ => 1
  | .repeatedParameter .. | .repeatedArgument .. | .paramCount .. | .operandCount .. | .paramKind ..
  | .invalidName .. | .gateOperandKind .. | .noQubits .. | .barrierOperandKind .. | .emptyBarrier
  | .operandKind .. => 2
  | .sizes .. | .callSizes .. | .measureSizes .. => 3
  | .listedTwice .. | .actsTwice .. | .usedTwice .. => 4
  | .classicalInGate .. | .measureInGate .. => 5

def bracketed {α : Type} [ToString α] (items : List α) : String :=
  "[" ++ Text.join ", " (items.map toString) ++ "]"

def message : SemanticProblem → String
  | .expression problem => problem.message
  | .repeatedParameter gate => s!"Gate '{gate}' repeats a formal parameter name."
  | .repeatedArgument gate => s!"Gate '{gate}' repeats a formal argument name."
  | .paramCount gate expected received =>
    s!"Gate '{gate}' expects {expected} parameter(s) but received {received}."
  | .operandCount gate expected received =>
    s!"Gate '{gate}' expects {expected} qubit operand(s) but received {received}."
  | .paramKind gate shown => s!"Gate '{gate}' parameters must be finite real numbers, got {shown}."
  | .invalidName shown => s!"Invalid gate name {shown}."
  | .gateOperandKind gate shown =>
    s!"Arguments of gate '{gate}' must be qubits or quantum registers, got {shown}."
  | .noQubits gate => s!"Gate '{gate}' needs at least one qubit argument."
  | .barrierOperandKind shown => s!"Barrier operands must be qubits or quantum registers, got {shown}."
  | .emptyBarrier => "A barrier needs at least one qubit."
  | .operandKind name shown => s!"'{name}' operands must be bits or registers, got {shown}."
  | .sizes name found => s!"'{name}' is applied to registers of different sizes {bracketed found}."
  | .callSizes gate found => s!"Gate '{gate}' is applied to registers of different sizes {bracketed found}."
  | .measureSizes qubits clbits => s!"Register sizes do not match for measurement '{qubits}' -> '{clbits}'."
  | .listedTwice gate => s!"Gate '{gate}' lists the same qubit more than once."
  | .actsTwice name => s!"'{name}' acts more than once on the same qubit."
  | .usedTwice name operand => s!"'{name}' uses {operand} more than once."
  | .classicalInGate gate => s!"Gate '{gate}' cannot contain operations on classical bits."
  | .measureInGate gate => s!"Gate '{gate}' cannot contain a measurement."

end SemanticProblem

end QasmCircuit
