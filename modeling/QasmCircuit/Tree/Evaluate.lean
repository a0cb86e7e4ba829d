import QasmCircuit.Arithmetic

/-!
# The value of an expression

`Tree.evaluate` is total: a tree that no expression has is a fault like any other. The names that an
expression reads are `Tree.names`.
-/

namespace QasmCircuit.Tree

/-- Values of parameters by name. -/
abbrev Env := List (String × Datum)

/-- What a node of an expression is. -/
inductive Shape where
  | number
  | pi
  | reference
  | binary (op : Operator)
  | negation
  | call
  | wrapper
  | other
deriving Repr, DecidableEq

def Shape.ofLabel (label : String) : Shape :=
  match Operator.ofLabel? label with
  | some op => .binary op
  | none =>
    if label = "number" then .number
    else if label = "pi" then .pi
    else if label = "param_ref" then .reference
    else if label = "neg" then .negation
    else if label = "fun1" then .call
    else if ["exp", "sum", "product", "unary", "power", "atom"].contains label then .wrapper
    else .other

/-- The value of a name: a constant, or a parameter. -/
def lookup (env : Env) (token : Tree) (name : String) : Except Fault Float :=
  if name = "pi" then .ok Arithmetic.pi
  else match env.lookup name with
    | some value => value.toReal
    | none => failAt (.expression (.unknownIdentifier name)) token.position

/-- The value of a number token below a node. -/
def numberValue (parent : Tree) : List Tree → Except Fault Float
  | [.token kind text line col] =>
    match Decimal.real? text with
    | some x => .ok x
    | none => failAt (.expression (.invalidNumber text)) (Tree.token kind text line col).position
  | [_] => failAt (.expression .numberToken) parent.position
  | _ => failAt (.expression .malformedNumber) parent.position

def functionToken : Tree → Except Fault Tree
  | .token kind text line col => .ok (.token kind text line col)
  | .node "func_name" _ (.token kind text line col :: _) => .ok (.token kind text line col)
  | .node "func_name" _ (child :: _) => failAt (.expression .functionToken) child.position
  | t => failAt (.expression .functionToken) t.position

/-- The value of an operator in a tree; a division by zero is the fault of the right operand. -/
def operatorValue (op : Operator) (parent right : Tree) (x y : Float) : Except Fault Float :=
  match Arithmetic.binary op x y with
  | .ok z => .ok z
  | .error .divisionByZero => failAt (.expression .divisionByZero) right.position
  | .error .overflow => failAt (.expression .overflow) parent.position
  | .error .notReal => failAt (.expression .notReal) parent.position

def functionValue (f : Function) (parent : Tree) (x : Float) : Except Fault Float :=
  match Arithmetic.functionAt? f x with
  | some y => .ok y
  | none => failAt (.expression (.undefinedAt f.text (Decimal.text x))) parent.position

def evaluate (env : Env) : Tree → Except Fault Float
  | .datum _ => .error .wrongKind
  | .token kind text line col =>
    if kind = "NUMBER" || kind = "INT" then (Datum.text text).toReal
    else if kind = "CNAME" then lookup env (.token kind text line col) text
    else failAt (.expression (.unexpectedToken kind)) (Tree.token kind text line col).position
  | .node label p children =>
    let here := Tree.node label p children
    match Shape.ofLabel label, children with
    | .number, cs => numberValue here cs
    | .pi, _ => .ok Arithmetic.pi
    | .reference, [.token kind text line col] => lookup env (.token kind text line col) text
    | .reference, _ => failAt (.expression .malformedReference) here.position
    | .binary op, [left, right] => do
      let x ← evaluate env left
      let y ← evaluate env right
      operatorValue op here right x y
    | .binary _, _ => failAt (.expression (.operandCount label)) here.position
    | .negation, [operand] => do
      let x ← evaluate env operand
      pure (-x)
    | .negation, _ => failAt (.expression .negationCount) here.position
    | .call, [function, argument] => do
      let token ← functionToken function
      let name ← token.spelling
      match Function.ofText? name with
      | none => failAt (.expression (.forbiddenFunction name)) token.position
      | some f =>
        let x ← evaluate env argument
        functionValue f here x
    | .call, _ => failAt (.expression .malformedCall) here.position
    | .wrapper, [child] => evaluate env child
    | .wrapper, _ => failAt (.expression (.wrapperCount label)) here.position
    | .other, _ => failAt (.expression (.unsupported label)) here.position

/-- The spellings of the tokens among some trees. -/
def tokenTexts (ts : List Tree) : List String :=
  ts.filterMap fun
    | .token _ text _ _ => some text
    | _ => none

mutual

/-- The names of the parameters in a tree, in the order of the text. -/
def names : Tree → List String
  | .datum _ => []
  | .token kind text _ _ => if kind = "CNAME" && text ≠ "pi" then [text] else []
  | .node label _ children => if label = "param_ref" then tokenTexts children else namesIn children

/-- The names of the parameters in some trees; names of functions are none. -/
def namesIn : List Tree → List String
  | [] => []
  | child :: rest => (if child.hasLabel "func_name" then [] else names child) ++ namesIn rest

end

/-- Some names in ascending order, each one once. -/
def sortedNames (ns : List String) : List String :=
  ns.eraseDups.mergeSort fun a b => !(b < a)

/-- The names of the parameters that an expression reads, in ascending order. Plain data has none to
ask for. -/
def paramNames : Tree → Except Fault (List String)
  | .datum _ => .error .missingPart
  | t => .ok (sortedNames t.names)

end QasmCircuit.Tree
