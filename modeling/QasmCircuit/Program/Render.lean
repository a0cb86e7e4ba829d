import QasmCircuit.Program

/-!
# The text of programs

Every statement has one canonical text. Statements are rendered without the semicolon behind them, which
`statementLine` adds where the language asks for one.
-/

namespace QasmCircuit

open Text

namespace Term

/-- The text of a number: the fewest digits that read back, and no sign for zero. -/
def realText (x : Float) : Except Fault String :=
  if x.isFinite then .ok (Decimal.text (if x == 0.0 then 0.0 else x))
  else fail (.render (.notFinite (Decimal.text x)))

def paramText : Term → Except Fault String
  | .symbolic text _ => .ok text
  | .value (.text s) => .ok s
  | .value d => do realText (← d.toReal)
  | .ref _ => .error .wrongKind

def render : Term → Except Fault String
  | .ref r => .ok r.text
  | .symbolic text _ => .ok text
  | .value d => fail (.render (.noForm d.kindName))

end Term

/-- The text of a guard in front of a statement. -/
def guardText (guard : Option Guard) (text : String) : Except Fault String :=
  match guard with
  | none => .ok text
  | some g => showing (isShort g.value) s!"if({g.register}=={g.value}) {text}"

/-- A name with its parameters, if there are any. -/
def nameWithParams (name : String) (params : List String) : String :=
  if params.isEmpty then name else name ++ "(" ++ join "," params ++ ")"

def callText (name : String) (params operands : List Term) : Except Fault String := do
  let operandTexts ← operands.mapM Term.render
  let paramTexts ← params.mapM Term.paramText
  pure (nameWithParams name paramTexts ++ " " ++ join "," operandTexts)

def commentText (text : String) : String := if text.isEmpty then "//" else "// " ++ text

def includeText (path : String) : String := "include \"" ++ path ++ "\";"

/-- The first line of a declaration. -/
def gateHead (name : String) (params args : List String) : String :=
  "gate " ++ nameWithParams name params ++ " " ++ join "," args

namespace Node

/-- Whether a statement needs no semicolon. -/
def isSelfTerminated : Node → Bool
  | .comment .. | .gate .. | .includes .. => true
  | _ => false

mutual

/-- The text of a statement without the semicolon behind it. -/
def render : Node → Except Fault String
  | .call name _ params operands guard => do guardText guard (← callText name params operands)
  | .primitive op first second guard _ => do
    guardText guard (← callText op (primitiveParams op first) (primitiveOperands op first second))
  | .measure qubit clbit _ guard => do
    let q ← qubit.render
    let c ← clbit.render
    guardText guard ("measure " ++ q ++ " -> " ++ c)
  | .barrier _ operands => do
    let texts ← operands.mapM Term.render
    pure ("barrier " ++ join "," texts)
  | .comment text _ => .ok (commentText text)
  | .includes path _ => .ok (includeText path)
  | .gate name _ params args body => do
    let lines ← bodyLines body
    pure (gateHead name params args ++ "\n\x7b" ++ lines ++ "\n\x7d")
  | .term t => t.render

/-- The indented lines of the body of a gate, each with a line break in front. -/
def bodyLines : List Node → Except Fault String
  | [] => .ok ""
  | n :: rest => do
    let text ← n.render
    let line := "\n  " ++ (if n.isSelfTerminated then text else text ++ ";")
    let lines ← bodyLines rest
    pure (line ++ lines)

end

/-- The text of a statement with the semicolon that it needs. -/
def statementLine (n : Node) : Except Fault String := do
  let text ← n.render
  pure (if n.isSelfTerminated then text else text ++ ";")

/-- The text of a statement on its own, which the parts of primitive gates have none of. -/
def standalone : Node → Except Fault String
  | .primitive _ _ _ _ p => failAt (.render .primitiveForm) p
  | .term (.ref r) => if r.kind = .primitive then failAt (.render .indexedForm) r.position else .ok r.text
  | .term (.value _) => .error .missingPart
  | n => n.render

end Node

def GateDef.render (g : GateDef) : Except Fault String := g.toNode.render

/-- The text of the declaration of a register. -/
def registerLine (kind : String) (register : String × Int) : String :=
  s!"{kind} {register.1}[{register.2}];"

def Program.render (p : Program) : Except Fault String := do
  let gates ← p.gates.mapM GateDef.render
  let body ← p.body.mapM Node.statementLine
  let lines := ["OPENQASM " ++ p.version ++ ";"] ++ p.includes.map (fun i => includeText i.path) ++
    p.qregs.map (registerLine "qreg") ++ p.cregs.map (registerLine "creg") ++ gates ++ body
  pure (join "\n" lines ++ "\n")

end QasmCircuit
