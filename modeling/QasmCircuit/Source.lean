import QasmCircuit.Expr

/-!
# Source programs

A program as it is written: every statement with its words, its expressions and their places, before any
name is resolved. `Source.toTree` gives the tree of a program.
-/

namespace QasmCircuit

namespace Source

/-- A name, an integer or a quoted text with its place. -/
structure Word where
  text : String
  position : Position
deriving Repr, DecidableEq

/-- A register, an argument of a gate, or one bit of a register. -/
structure Reference where
  name : Word
  index : Option Word
deriving Repr, DecidableEq

/-- The parenthesised parameters of a call. -/
structure Params where
  position : Position
  exprs : List Expr
deriving Repr, DecidableEq

/-- The application of a gate. -/
inductive Operation where
  | unitary (position : Position) (theta phi lam : Expr) (target : Reference)
  | controlledNot (position : Position) (control target : Reference)
  | call (name : Word) (params : Option Params) (operands : List Reference)
deriving Repr, DecidableEq

/-- What a guard can stand in front of. -/
inductive Action where
  | operation (op : Operation)
  | measure (position : Position) (qubit clbit : Reference)
deriving Repr, DecidableEq

/-- A statement of the program. -/
inductive Statement where
  | action (action : Action)
  | barrier (position : Position) (operands : List Reference)
  | guarded (position : Position) (register value : Word) (action : Action)
deriving Repr, DecidableEq

/-- A statement of the body of a gate. -/
inductive BodyStatement where
  | operation (op : Operation)
  | barrier (position : Position) (operands : List Reference)
deriving Repr, DecidableEq

/-- The parenthesised formal parameters of a gate. -/
structure Formals where
  position : Position
  names : List Word
deriving Repr, DecidableEq

/-- A declaration. -/
inductive Declaration where
  | qreg (position : Position) (name size : Word)
  | creg (position : Position) (name size : Word)
  | gate (position : Position) (name : Word) (params : Option Formals) (args : List Word)
      (bodyPosition : Position) (body : List BodyStatement)
deriving Repr, DecidableEq

/-- A part of a program at its top level. -/
inductive Item where
  | includes (position : Position) (path : Word)
  | declaration (declaration : Declaration)
  | statement (statement : Statement)
deriving Repr, DecidableEq

end Source

/-- A program: its version and its items. -/
structure Source where
  position : Position
  version : Source.Word
  items : List Source.Item
deriving Repr, DecidableEq

namespace Source

def branch (label : String) (position : Position) (children : List Tree) : Tree :=
  .node label (some position) children

namespace Word

def name (w : Word) : Tree := .leaf "CNAME" w.text w.position

def integer (w : Word) : Tree := .leaf "INT" w.text w.position

end Word

/-- The place where a list of words begins. -/
def wordsPosition (ws : List Word) : Position :=
  (ws.head?.map (·.position)).getD .origin

def namesTree (ws : List Word) : Tree :=
  branch "id_list" (wordsPosition ws) (ws.map Word.name)

namespace Reference

/-- The place where a reference begins. -/
def position (r : Reference) : Position := r.name.position

def toTree (r : Reference) : Tree :=
  branch "qarg" r.position (r.name.name :: (r.index.map Word.integer).toList)

end Reference

/-- The place where a list of references begins. -/
def referencesPosition (rs : List Reference) : Position :=
  (rs.head?.map (·.position)).getD .origin

def referencesTree (rs : List Reference) : Tree :=
  branch "qarg_list" (referencesPosition rs) (rs.map Reference.toTree)

def Params.toTree (p : Params) : Tree :=
  branch "call_params" p.position (match p.exprs with
    | [] => []
    | es =>
      let trees := es.map Expr.toTree
      [branch "exp_list" ((trees.head?.map Tree.position).getD .origin) trees])

/-- The tree of parenthesised formal parameters. -/
def Formals.toTree (f : Formals) : Tree :=
  branch "gate_params" f.position (match f.names with
    | [] => []
    | names => [namesTree names])

namespace Operation

/-- The place where an operation begins. -/
def position : Operation → Position
  | .unitary p .. => p
  | .controlledNot p .. => p
  | .call name .. => name.position

def toTree (op : Operation) : Tree :=
  branch "gate_op" op.position [match op with
    | .unitary p theta phi lam target =>
      branch "u_op" p [theta.toTree, phi.toTree, lam.toTree, target.toTree]
    | .controlledNot p control target => branch "cx_op" p [control.toTree, target.toTree]
    | .call name params operands =>
      branch "call" name.position (name.name :: (params.map Params.toTree).toList ++ [referencesTree operands])]

end Operation

def barrierTree (p : Position) (operands : List Reference) : Tree :=
  branch "barrier" p [referencesTree operands]

namespace Action

/-- The place where an action begins. -/
def position : Action → Position
  | .operation op => op.position
  | .measure p .. => p

def toTree : Action → Tree
  | .operation op => op.toTree
  | .measure p qubit clbit => branch "measure" p [qubit.toTree, clbit.toTree]

end Action

def Statement.toTree : Statement → Tree
  | .action a => branch "stmt" a.position [a.toTree]
  | .barrier p operands => branch "stmt" p [barrierTree p operands]
  | .guarded p register value a =>
    branch "stmt" p [branch "if_stmt" p [register.name, value.integer, a.toTree]]

def BodyStatement.toTree : BodyStatement → Tree
  | .operation op => op.toTree
  | .barrier p operands => barrierTree p operands

def Declaration.toTree : Declaration → Tree
  | .qreg p name size => branch "decl" p [branch "qreg" p [name.name, size.integer]]
  | .creg p name size => branch "decl" p [branch "creg" p [name.name, size.integer]]
  | .gate p name params args bodyPosition body =>
    branch "decl" p [branch "gate_decl" p (name.name :: (params.map Formals.toTree).toList ++
        [branch "gate_args" (wordsPosition args) [namesTree args],
          branch "gate_body" bodyPosition (body.map BodyStatement.toTree)])]

def Item.toTree : Item → Tree
  | .includes p path => branch "include" p [.leaf "STRING" path.text path.position]
  | .declaration d => d.toTree
  | .statement s => s.toTree

def toTree (s : Source) : Tree :=
  branch "start" s.position
    (branch "header" s.position [.leaf "NUMBER" s.version.text s.version.position] :: s.items.map Item.toTree)

end Source

end QasmCircuit
