import QasmCircuit.Tree.Evaluate

/-!
# The text of an expression

An expression is printed without spaces and with parentheses only where the grammar needs them: `print`
gives the text together with the level at which it binds.
-/

namespace QasmCircuit.Tree

/-- A text in parentheses, if it is needed. -/
def enclose (needed : Bool) (text : String) : String := if needed then "(" ++ text ++ ")" else text

/-- Whether a left operand needs parentheses. -/
def enclosesLeft (op : Operator) (level : Nat) : Bool :=
  if op = .pow then level ≤ op.level else level < op.level

/-- Whether a right operand needs parentheses. -/
def enclosesRight (op : Operator) (level : Nat) : Bool :=
  if op = .pow then level < negationLevel else level ≤ op.level

/-- The text of an operator between two printed operands. -/
def printBinary (op : Operator) (left right : String × Nat) : String × Nat :=
  (enclose (enclosesLeft op left.2) left.1 ++ op.symbol ++ enclose (enclosesRight op right.2) right.1, op.level)

/-- The spelling of the first token below a node. -/
def firstSpelling : List Tree → Except Fault String
  | [] => .error .missingItem
  | child :: _ => child.spelling

/-- The text of an expression and the level at which it binds. -/
def print : Tree → Except Fault (String × Nat)
  | .datum _ => .error .missingPart
  | .token _ text _ _ => .ok (text, atomLevel)
  | .node label p children =>
    match Shape.ofLabel label, children with
    | .number, cs | .reference, cs => do
      let text ← firstSpelling cs
      pure (text, atomLevel)
    | .pi, _ => .ok ("pi", atomLevel)
    | .call, function :: argument :: _ => do
      let inner ← print argument
      let token ← functionToken function
      let name ← token.spelling
      pure (name ++ "(" ++ inner.1 ++ ")", atomLevel)
    | .call, _ => .error .missingItem
    | .negation, operand :: _ => do
      let inner ← print operand
      pure ("-" ++ enclose (inner.2 < negationLevel) inner.1, negationLevel)
    | .negation, [] => .error .missingItem
    | .binary op, left :: right :: _ => do
      let l ← print left
      let r ← print right
      pure (printBinary op l r)
    | .binary _, [left] => do
      let _ ← print left
      .error .missingItem
    | .binary _, [] => .error .missingItem
    | _, [child] => print child
    | _, cs => failAt (.expression (.unsupported label)) (Tree.node label p cs).position

def text (t : Tree) : Except Fault String := (print t).map (·.1)

end QasmCircuit.Tree
