import QasmCircuit.Program
import QasmCircuit.Tree.Print
import QasmCircuit.Library
import QasmCircuit.Source.Reader

/-!
# Programs from trees

Names are resolved in the order of the text: a register or a gate has to be declared before it is used.
Outside of gates parameters become numbers; in the body of a gate an expression that reads parameters is
kept. Trees that no text has are refused with a problem of their own.
-/

namespace QasmCircuit.Program

/-- The names that the body of a gate can use. -/
structure GateScope where
  name : String
  params : List String
  args : List String

/-- Reports a problem at the place of a token, which has to have one. -/
def failAtToken {α : Type} (problem : Problem) : Tree → Except Fault α
  | .token _ _ (some line) (some col) => failAt problem ⟨line, col⟩
  | .token _ _ (some line) none => .error (if line < 1 then .defect .errorPlace else .wrongKind)
  | _ => .error .wrongKind

def integer (token : Tree) : Except Fault Int := do
  let text ← token.spelling
  match Decimal.integer? text with
  | some n => .ok n
  | none => .error (.defect (.notInteger text))

/-- Whether a register of some size can hold a value: the value is below two to the size. -/
def fits (value size : Int) : Bool :=
  value ≤ 0 || decide (value.toNat.log2 < size)

/-- A parameter: a number, or an expression over the parameters of the gate around it. -/
def parameter (scope : Option GateScope) (t : Tree) : Except Fault Term :=
  match scope with
  | none => do pure (.value (.real (← t.evaluate [])))
  | some g => do
    let names ← t.paramNames
    match names.find? fun n => !g.params.contains n with
    | some n => failAt (.expression (.unknownParameter n g.name)) t.position
    | none =>
      if names.isEmpty then pure (.value (.real (← t.evaluate [])))
      else pure (.symbolic (← t.text) t)

def reference (t : Tree) : Except Fault (String × Option Int × Position) :=
  match Tree.findTokenIn? "CNAME" t.children with
  | none => failAt (.source .referenceName) t.position
  | some name => do
    let index ← (Tree.findTokenIn? "INT" t.children).mapM integer
    pure (← name.spelling, index, t.position)

/-- A reference to a register of some size, or to a bit that it has. -/
def inRange (size : Int) (problem : Int → Problem) (r : Ref) : Except Fault Ref :=
  match r.index with
  | some i => if size ≤ i then failAt (problem i) r.position else pure r
  | none => pure r

def quantumRef (p : Program) (scope : Option GateScope) (t : Tree) : Except Fault Ref := do
  let (name, index, position) ← reference t
  match scope with
  | some g =>
    if !g.args.contains name then failAt (.resolution (.notArgument name g.name)) position
    else if index.isSome then failAt (.source (.indexedArgument name)) position
    else pure ⟨.primitive, name, none, position⟩
  | none =>
    match p.qregs.lookup name with
    | none =>
      if (p.cregs.lookup name).isSome then failAt (.resolution (.notQuantum name)) position
      else failAt (.resolution (.unknownQuantum name)) position
    | some size => inRange size (fun i => .register (.qubitRange i name)) ⟨.primitive, name, index, position⟩

def classicalSize (p : Program) (name : String) : Except Problem Int :=
  match p.cregs.lookup name with
  | some size => .ok size
  | none =>
    if (p.qregs.lookup name).isSome then .error (.resolution (.notClassical name))
    else .error (.resolution (.unknownClassical name))

def classicalRef (p : Program) (t : Tree) : Except Fault Ref := do
  let (name, index, position) ← reference t
  match p.classicalSize name with
  | .error problem => failAt problem position
  | .ok size => inRange size (fun i => .register (.clbitRange i name)) ⟨.classical, name, index, position⟩

def quantumRefs (p : Program) (scope : Option GateScope) (ts : List Tree) : Except Fault (List Ref) :=
  (ts.filter Tree.isNode).mapM (quantumRef p scope)

def operandTerms (rs : List Ref) : List Term := rs.map fun r => .ref r.toQuantum

def unitary (p : Program) (scope : Option GateScope) (t : Tree) : Except Fault Node :=
  match t.children.filter (Tree.hasLabel "qarg"), t.children.filter (fun c => !c.hasLabel "qarg") with
  | [target], [theta, phi, lam] => do
    let params ← [theta, phi, lam].mapM (parameter scope)
    let r ← quantumRef p scope target
    pure (.primitive "U" params [.ref r] none t.position)
  | _, _ => failAt (.source .unitaryShape) t.position

def controlledNot (p : Program) (scope : Option GateScope) (t : Tree) : Except Fault Node := do
  match ← quantumRefs p scope t.children with
  | [control, target] => pure (.primitive "CX" [.ref control] [.ref target] none t.position)
  | _ => failAt (.source .controlledNotShape) t.position

def callParams (scope : Option GateScope) (t : Tree) : Except Fault (List Term) :=
  match Tree.findChild? "call_params" t.children with
  | none => .ok []
  | some ps =>
    match Tree.findChild? "exp_list" ps.children with
    | none => .ok []
    | some es => (es.children.filter Tree.isProper).mapM (parameter scope)

/-- A call of a gate, which has to be known. -/
def call (lib : Library) (p : Program) (scope : Option GateScope) (t : Tree) : Except Fault Node :=
  match t.children with
  | .token _ name _ _ :: _ =>
    if !(lib.contains name || (findGate? p.gates name).isSome) then
      failAt (.resolution (.unknownGate name)) t.position
    else do
      let params ← callParams scope t
      match Tree.findChild? "qarg_list" t.children with
      | none => failAt (.source (.callArguments name)) t.position
      | some list =>
        let operands ← quantumRefs p scope list.children
        pure (.call name t.position params (operandTerms operands) none)
  | _ => failAt (.source .callName) t.position

def operation (lib : Library) (p : Program) (scope : Option GateScope) (t : Tree) : Except Fault Node :=
  match t.children with
  | .node "u_op" q cs :: _ => unitary p scope (.node "u_op" q cs)
  | .node "cx_op" q cs :: _ => controlledNot p scope (.node "cx_op" q cs)
  | .node "call" q cs :: _ => call lib p scope (.node "call" q cs)
  | _ => failAt (.source .operation) t.position

def barrier (p : Program) (scope : Option GateScope) (t : Tree) : Except Fault Node := do
  let operands ← match Tree.findChild? "qarg_list" t.children with
    | none => pure []
    | some list => quantumRefs p scope list.children
  pure (.barrier t.position (operandTerms operands))

def measure (p : Program) (t : Tree) : Except Fault Node :=
  match t.children.filter Tree.isNode with
  | [qubit, clbit] => do
    let q ← quantumRef p none qubit
    let c ← classicalRef p clbit
    pure (.measure (.ref q.toQuantum) (.ref c) t.position none)
  | _ => failAt (.source .measurement) t.position

/-- A guarded statement. The guard is resolved before the statement behind it. -/
def guarded (lib : Library) (p : Program) (t : Tree) : Except Fault Node :=
  let isInteger : Tree → Bool
    | .token kind .. => kind == "INT"
    | _ => false
  match Tree.findTokenIn? "CNAME" t.children, t.children.filter isInteger, t.children.filter Tree.isNode with
  | some register, value :: _, [target] => do
    let name ← register.spelling
    match p.classicalSize name with
    | .error problem => failAtToken problem register
    | .ok size =>
      let n ← integer value
      if !fits n size then failAtToken (.modifier (.valueRange (toString n) name size.toNat)) register
      else
        let node ← if target.hasLabel "measure" then measure p target else operation lib p none target
        pure (node.withGuard ⟨name, n⟩)
  | _, _, _ => failAt (.source .guard) t.position

def statement (lib : Library) (p : Program) (t : Tree) : Except Fault Node :=
  match t.children with
  | .node "gate_op" q cs :: _ => operation lib p none (.node "gate_op" q cs)
  | .node "measure" q cs :: _ => measure p (.node "measure" q cs)
  | .node "barrier" q cs :: _ => barrier p none (.node "barrier" q cs)
  | .node "if_stmt" q cs :: _ => guarded lib p (.node "if_stmt" q cs)
  | _ => failAt (.source .statement) t.position

def bodyStatement (lib : Library) (p : Program) (scope : GateScope) : Tree → Except Fault Node
  | .node "gate_op" q cs => operation lib p (some scope) (.node "gate_op" q cs)
  | .node "barrier" q cs => barrier p (some scope) (.node "barrier" q cs)
  | .node label q cs => failAt (.source (.bodyStatement label)) (Tree.node label q cs).position
  | t => failAt (.source (.bodyStatement "")) t.position

def register (p : Program) (label : String) (t : Tree) : Except Fault (String × Int) :=
  match Tree.findTokenIn? "CNAME" t.children, Tree.findTokenIn? "INT" t.children with
  | some name, some size => do
    let registerName ← name.spelling
    let n ← integer size
    if (p.qregs.lookup registerName).isSome || (p.cregs.lookup registerName).isSome then
      failAtToken (.register (.duplicate registerName)) name
    else if n ≤ 0 then failAtToken (.register (.noSize registerName)) name
    else pure (registerName, n)
  | _, _ => failAt (.source (.register label)) t.position

mutual

def identifiers : Tree → List String
  | .node _ _ children => identifiersIn children
  | .token kind text _ _ => if kind = "CNAME" then [text] else []
  | .datum _ => []

def identifiersIn : List Tree → List String
  | [] => []
  | t :: rest => identifiers t ++ identifiersIn rest

end

/-- Whether a list names something twice. -/
def repeats : List String → Bool
  | [] => false
  | n :: rest => rest.contains n || repeats rest

def gate (lib : Library) (p : Program) (t : Tree) : Except Fault GateDef :=
  match t.children with
  | .token _ name _ _ :: _ =>
    if (findGate? p.gates name).isSome || lib.contains name || name = "U" || name = "CX" then
      failAt (.resolution (.duplicateGate name)) t.position
    else
      match Tree.findChild? "gate_args" t.children, Tree.findChild? "gate_body" t.children with
      | some argsTree, some bodyTree =>
        let params := ((Tree.findChild? "gate_params" t.children).map identifiers).getD []
        let args := identifiers argsTree
        if repeats params then failAt (.semantic (.repeatedParameter name)) t.position
        else if repeats args then failAt (.semantic (.repeatedArgument name)) t.position
        else do
          let body ← (bodyTree.children.filter Tree.isNode).mapM (bodyStatement lib p ⟨name, params, args⟩)
          pure ⟨name, t.position, params, args, body⟩
      | _, _ => failAt (.source (.gateArguments name)) t.position
  | _ => failAt (.source .gateName) t.position

def declaration (lib : Library) (p : Program) (t : Tree) : Except Fault Program :=
  match t.children with
  | .node "qreg" q cs :: _ => do
    let r ← register p "qreg" (.node "qreg" q cs)
    pure { p with qregs := p.qregs ++ [r] }
  | .node "creg" q cs :: _ => do
    let r ← register p "creg" (.node "creg" q cs)
    pure { p with cregs := p.cregs ++ [r] }
  | .node "gate_decl" q cs :: _ => do
    let g ← gate lib p (.node "gate_decl" q cs)
    pure { p with gates := putGate g p.gates }
  | .node label q cs :: _ => failAt (.source (.declaration label)) (Tree.node label q cs).position
  | _ => failAt (.source .declarationToken) t.position

def header (t : Tree) : Except Fault String :=
  match Tree.findTokenIn? "NUMBER" t.children with
  | some token => token.spelling
  | none => failAt (.source .header) t.position

/-- A text without its first and its last character. -/
def unquoted (s : String) : String := String.ofList (s.toList.drop 1).dropLast

def includeOf (t : Tree) : Except Fault Include :=
  match Tree.findTokenIn? "STRING" t.children with
  | some token => do pure ⟨unquoted (← token.spelling), t.position⟩
  | none => failAt (.source .includePath) t.position

def item (lib : Library) (p : Program) : Tree → Except Fault Program
  | .node "header" q cs => do pure { p with version := ← header (.node "header" q cs) }
  | .node "include" q cs => do pure { p with includes := p.includes ++ [← includeOf (.node "include" q cs)] }
  | .node "decl" q cs => declaration lib p (.node "decl" q cs)
  | .node "stmt" q cs => do pure { p with body := p.body ++ [← statement lib p (.node "stmt" q cs)] }
  | .node label q cs => failAt (.source (.topLevel label)) (Tree.node label q cs).position
  | _ => .ok p

def ofTree (lib : Library) : Tree → Except Fault Program
  | .node "start" _ children => children.foldlM (item lib) {}
  | _ => .error (.defect .notStart)

def guardOf? : Node → Option Guard
  | .call _ _ _ _ g => g
  | .primitive _ _ _ g _ => g
  | .measure _ _ _ g => g
  | _ => none

/-- Whether the integers of a program are short: the sizes of its registers and the values of its guards. An index is
below a size. -/
def hasShortIntegers (p : Program) : Bool :=
  (p.qregs ++ p.cregs).all (fun r => Text.isShort r.2) &&
    p.body.all fun n => (guardOf? n).all fun g => Text.isShort g.value

/-- The program of a text. Integers with too many digits are looked for last, so that another problem comes first. -/
def parse (lib : Library) (text : String) : Except Fault Program := do
  let source ← Source.parse text
  let p ← ofTree lib source.toTree
  if p.hasShortIntegers then pure p else throw (.defect .tooManyDigits)

end QasmCircuit.Program
