import QasmCircuit.Tree.Evaluate

/-!
# Programs

A program with its names resolved: registers, declared gates in order, and statements. Statements can
also be built by hand, so they may hold terms that no text gives rise to.
-/

namespace QasmCircuit

/-- What a reference refers to. -/
inductive RefKind where
  /-- A quantum register, a qubit, or an argument of a gate. -/
  | quantum
  /-- A classical register or bit. -/
  | classical
  /-- An operand of a primitive gate. -/
  | primitive
deriving Repr, DecidableEq

/-- A reference to a whole register or to one of its bits. -/
structure Ref where
  kind : RefKind
  name : String
  index : Option Int := none
  position : Position := .origin
deriving Repr, DecidableEq

/-- A parameter or an operand. -/
inductive Term where
  | ref (ref : Ref)
  /-- An expression over the parameters of a gate, with its text. -/
  | symbolic (text : String) (expr : Tree)
  | value (datum : Datum)
deriving Inhabited

/-- A classical register and the value that it must hold. -/
structure Guard where
  register : String
  value : Int
deriving Repr, DecidableEq

/-- A statement, or what may stand in the place of one. -/
inductive Node where
  | call (name : String) (position : Position) (params operands : List Term) (guard : Option Guard)
  /-- A primitive gate. The first list holds the parameters, or the control of a gate without any. -/
  | primitive (op : String) (first second : List Term) (guard : Option Guard) (position : Position)
  | measure (qubit clbit : Term) (position : Position) (guard : Option Guard)
  | barrier (position : Position) (operands : List Term)
  | comment (text : String) (position : Position)
  | includes (path : String) (position : Position)
  | gate (name : String) (position : Position) (params args : List String) (body : List Node)
  | term (term : Term)
deriving Inhabited

/-- A declared gate. -/
structure GateDef where
  name : String
  position : Position := .origin
  params : List String := []
  args : List String := []
  body : List Node := []

namespace GateDef

def toNode (g : GateDef) : Node := .gate g.name g.position g.params g.args g.body

/-- A declaration with more statements at its end. -/
def extend (g : GateDef) (statements : List Node) : GateDef := { g with body := g.body ++ statements }

end GateDef

/-- An include directive. -/
structure Include where
  path : String
  position : Position := .origin

/-- A program. Its gates are in the order of their declarations, one for each name. -/
structure Program where
  version : String := "2.0"
  includes : List Include := []
  qregs : List (String × Int) := []
  cregs : List (String × Int) := []
  gates : List GateDef := []
  body : List Node := []

def findGate? (gates : List GateDef) (name : String) : Option GateDef :=
  gates.find? fun g => g.name == name

/-- Puts a declaration into a table: one of the same name gives up its place to it. -/
def putGate (g : GateDef) : List GateDef → List GateDef
  | [] => [g]
  | first :: rest => if first.name == g.name then g :: rest else first :: putGate g rest

namespace Node

def primitiveOperands (op : String) (first second : List Term) : List Term :=
  if op = "CX" then first ++ second else second

def primitiveParams (op : String) (first : List Term) : List Term :=
  if op = "CX" then [] else first

def withGuard (guard : Guard) : Node → Node
  | .call name p params operands _ => .call name p params operands (some guard)
  | .primitive op first second _ p => .primitive op first second (some guard) p
  | .measure qubit clbit p _ => .measure qubit clbit p (some guard)
  | n => n

/-- The operands of a primitive gate; no other statement has any to ask for. -/
def operands : Node → Except Fault (List Term)
  | .primitive op first second _ _ => .ok (primitiveOperands op first second)
  | _ => .error .missingPart

def params : Node → Except Fault (List Term)
  | .call _ _ params _ _ => .ok params
  | .primitive op first _ _ _ => .ok (primitiveParams op first)
  | .gate _ _ params _ _ => .ok (params.map fun p => .value (.text p))
  | _ => .error .missingPart

end Node

namespace Ref

/-- An operand of a primitive gate as a reference to a qubit. -/
def toQuantum (r : Ref) : Ref := { r with kind := .quantum }

def text (r : Ref) : String :=
  match r.index with
  | none => r.name
  | some i => r.name ++ "[" ++ toString i ++ "]"

end Ref

namespace Term

/-- The reference to a register or a bit that a term is. -/
def reference : Term → Except Fault Ref
  | .ref r => if r.kind = .primitive then .error .missingPart else .ok r
  | _ => .error .missingPart

/-- An operand of a primitive gate as a reference to a qubit. -/
def toQuantum : Term → Except Fault Ref
  | .ref r => if r.kind = .primitive then .ok r.toQuantum else .error .missingPart
  | _ => .error .missingPart

/-- The value of a parameter, with the parameters of a gate bound. -/
def resolve (env : Tree.Env) : Term → Except Fault Float
  | .symbolic _ expr => expr.evaluate env
  | .value d => d.toReal
  | .ref _ => .error .wrongKind

end Term

end QasmCircuit
