import QasmCircuit.Token
import QasmCircuit.Tree

/-!
# Parameter expressions

Expressions over numbers, `pi` and the parameters of a gate, with the place of their first token.
`Expr.toTree` is the tree that stands for an expression everywhere outside the reader.
-/

namespace QasmCircuit

/-- The operators with two operands. -/
inductive Operator where
  | add
  | sub
  | mul
  | div
  | pow
deriving Repr, DecidableEq

namespace Operator

def label : Operator → String
  | .add => "add"
  | .sub => "sub"
  | .mul => "mul"
  | .div => "div"
  | .pow => "pow"

def symbol : Operator → String
  | .add => "+"
  | .sub => "-"
  | .mul => "*"
  | .div => "/"
  | .pow => "^"

/-- How tightly an operator binds. -/
def level : Operator → Nat
  | .add | .sub => 1
  | .mul | .div => 2
  | .pow => 4

def all : List Operator := [.add, .sub, .mul, .div, .pow]

def ofLabel? (label : String) : Option Operator := all.find? fun op => op.label == label

theorem ofLabel?_label (op : Operator) : ofLabel? op.label = some op := by cases op <;> rfl

end Operator

/-- How tightly a minus sign in front binds. -/
def negationLevel : Nat := 3

/-- The level of what needs no parentheses anywhere. -/
def atomLevel : Nat := 5

/-- A parameter expression. -/
inductive Expr where
  | number (position : Position) (text : String)
  | pi (position : Position)
  | param (position : Position) (name : String)
  | call (position : Position) (f : Function) (argument : Expr)
  | neg (position : Position) (operand : Expr)
  | binary (position : Position) (op : Operator) (left right : Expr)
deriving Repr, DecidableEq

namespace Expr

def toTree : Expr → Tree
  | .number p text => .node "number" (some p) [.leaf "NUMBER" text p]
  | .pi p => .node "pi" (some p) []
  | .param p name => .node "param_ref" (some p) [.leaf "CNAME" name p]
  | .call p f argument =>
    .node "fun1" (some p) [.node "func_name" (some p) [.leaf (Keyword.function f).label f.text p], argument.toTree]
  | .neg p operand => .node "neg" (some p) [operand.toTree]
  | .binary p op left right => .node op.label (some p) [left.toTree, right.toTree]

end Expr

end QasmCircuit
