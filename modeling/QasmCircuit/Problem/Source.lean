import QasmCircuit.Position
import QasmCircuit.Text.Blank
import QasmCircuit.Text.Quoted

/-!
# Problems with the form of a source text

A text that the grammar does not derive, and trees that no text has.
-/

namespace QasmCircuit

/-- What can be wrong with the form of a program. -/
inductive SourceProblem where
  | unexpectedToken (terminal text : String) (position : Position)
  | unexpectedCharacter (c : Char) (position : Position)
  | topLevel (label : String)
  | header
  | includePath
  | declarationToken
  | declaration (label : String)
  | register (label : String)
  | gateName
  | gateArguments (name : String)
  | bodyStatement (label : String)
  | statement
  | guard
  | operation
  | unitaryShape
  | controlledNotShape
  | callName
  | callArguments (name : String)
  | measurement
  | indexedArgument (name : String)
  | referenceName
  | version (text : String)
deriving Repr, DecidableEq

namespace SourceProblem

def number (_ : SourceProblem) : Nat := 1

/-- The explanation of a problem, of which only the first line is kept. -/
def message : SourceProblem → String
  | .unexpectedToken terminal text p =>
    s!"Unexpected token Token('{terminal}', {Text.quoted text}) at line {p.line}, column {p.col}."
  | .unexpectedCharacter c p =>
    Text.firstLine s!"No terminal matches '{c}' in the current parser context, at line {p.line} col {p.col}"
  | .topLevel label => s!"Unexpected top-level construct '{label}'."
  | .header => "Malformed OPENQASM header."
  | .includePath => "Malformed include directive."
  | .declarationToken => "Unexpected token in declaration."
  | .declaration label => s!"Unsupported declaration '{label}'."
  | .register label => s!"Malformed {label} declaration."
  | .gateName => "Gate declaration missing identifier."
  | .gateArguments name => s!"Gate '{name}' missing argument list."
  | .bodyStatement label => s!"Unsupported gate body statement '{label}'."
  | .statement => "Unsupported statement."
  | .guard => "Malformed if statement."
  | .operation => "Malformed gate operation."
  | .unitaryShape => "U requires three parameters and one operand."
  | .controlledNotShape => "Controlled-X requires two quantum operands."
  | .callName => "Gate invocation missing identifier."
  | .callArguments name => s!"Gate call '{name}' missing argument list."
  | .measurement => "Malformed measurement statement."
  | .indexedArgument name => s!"Gate argument '{name}' cannot be indexed."
  | .referenceName => "Missing identifier in reference."
  | .version text => s!"OPENQASM version '{text}' is not supported; use 2.0."

end SourceProblem

end QasmCircuit
