import QasmCircuit.Draft
import QasmCircuit.Program.Render

/-!
# The text of drafts

A draft is rendered like the program that it stands for. Where a text is put together from parts, every
part has to be a text; where a part is put into a text, any value will do.
-/

namespace QasmCircuit.Draft

open Text

def textOf : Draft → Except Fault String
  | .value (.text s) => .ok s
  | _ => .error .wrongKind

def commaSeparated (ds : List Draft) : Except Fault String := do
  pure (join "," (← ds.mapM textOf))

def locate (problem : Problem) (d : Draft) : Except Fault Fault := do
  let line ← (← (← d.get "line").key).coordinate
  if line.isBelowOne then throw (.defect .errorPlace)
  let col ← (← (← d.get "col").key).coordinate
  pure (Fault.placed problem line col)

/-- A failed step at the place that a draft gives. -/
def failIn {α : Type} (problem : Problem) (d : Draft) : Except Fault α := do
  throw (← locate problem d)

def paramText (d : Draft) : Except Fault Draft :=
  match d with
  | .node .symbolic _ => d.get "text"
  | .value (.text s) => .ok (text s)
  | .value x => do pure (text (← Term.realText (← x.toReal)))
  | _ => .error .wrongKind

/-- A register with an index, or on its own. -/
def indexed (name index : Draft) : Draft :=
  if index.isNull then name else text (name.asName ++ "[" ++ index.asName ++ "]")

def callText (name params : Draft) (operands : List Draft) : Except Fault String := do
  let values ← if params.isVoid then pure "" else do
    let texts ← (← params.items).mapM paramText
    pure ("(" ++ (← commaSeparated texts) ++ ")")
  pure ((← name.textOf) ++ values ++ " " ++ (← commaSeparated operands))

/-- A text behind a guard, if there is one. -/
def guarded (guard : Draft) (s : String) : Except Fault String :=
  if guard.isNull then .ok s
  else do
    let (register, expected) ← guard.pair
    pure ("if(" ++ register.asName ++ "==" ++ expected.asName ++ ") " ++ s)

def primitiveOperands (d : Draft) : Except Fault (List Draft) := do
  if (← d.get "op").isText "CX" then
    let control ← d.itemsOf "arg"
    pure (control ++ (← d.itemsOf "arg2"))
  else d.itemsOf "arg2"

/-- The parameters of a gate: those of a primitive one follow from its name. -/
def params (d : Draft) : Except Fault Draft := do
  if d.isKind .primitive then
    if (← d.get "op").isText "CX" then pure (.list []) else do pure (.list (← d.itemsOf "arg"))
  else d.get "params"

/-- An operand of a primitive gate as a reference to a qubit. -/
def toQubit (d : Draft) : Except Fault Draft := do
  if !d.isKind .operand then throw .missingPart
  make .qubit [("reg", ← d.get "identifier"), ("idx", ← d.get "index"), ("line", ← d.get "line"),
    ("col", ← d.get "col")]

def commentText (d : Draft) : String := if d.isVoid then "//" else "// " ++ d.asName

/-- The first line of a declaration. -/
def gateHead (name params args : Draft) : Except Fault String := do
  let formals ← if params.isVoid then pure "" else do pure ("(" ++ (← commaSeparated (← params.items)) ++ ")")
  pure ("gate " ++ name.asName ++ formals ++ " " ++ (← commaSeparated (← args.items)))

def registerLine (keyword : String) (d : Draft) : Except Fault String := do
  let (name, size) ← d.pair
  pure (keyword ++ " " ++ name.asName ++ "[" ++ size.asName ++ "];")

/-- Whether a statement needs no semicolon. -/
def isSelfTerminated (d : Draft) : Bool := d.isKind .comment || d.isKind .gate || d.isKind .includes

/-- A statement with the semicolon that it needs, given its text. -/
def withSemicolon (d rendered : Draft) : Except Fault Draft := do
  if d.isSelfTerminated then pure rendered else pure (text ((← rendered.textOf) ++ ";"))

/-- Why a draft has no text on its own, if it has none. -/
def standaloneFault? (d : Draft) : Except Fault (Option Fault) :=
  match d with
  | .node .operand _ => do pure (some (← locate (.render .indexedForm) d))
  | .node .primitive _ => do pure (some (← locate (.render .primitiveForm) d))
  | .node .. => .ok none
  | _ => .ok (some .missingPart)

/-- The text of a draft, where parts are rendered by `render`. -/
def renderBy (render : Draft → Except Fault Draft) (d : Draft) : Except Fault Draft := do
  match d with
  | .node kind _ =>
    match kind with
    | .qubit | .clbit => pure (indexed (← d.get "reg") (← d.get "idx"))
    | .operand => pure (indexed (← d.get "identifier") (← d.get "index"))
    | .symbolic => d.get "text"
    | .call =>
      let operands ← (← d.itemsOf "qargs").mapM render
      let s ← callText (← d.get "name") (← d.get "params") operands
      pure (text (← guarded (← d.get "condition") s))
    | .primitive =>
      let params ← d.params
      let operands ← (← d.primitiveOperands).mapM render
      pure (text (← guarded (← d.get "condition") (← callText (← d.get "op") params operands)))
    | .measure =>
      let q ← render (← d.get "q")
      let c ← render (← d.get "c")
      pure (text (← guarded (← d.get "condition") ("measure " ++ q.asName ++ " -> " ++ c.asName)))
    | .barrier =>
      let operands ← (← d.itemsOf "qargs").mapM render
      pure (text ("barrier " ++ (← commaSeparated operands)))
    | .comment => pure (text (commentText (← d.get "text")))
    | .includes => pure (text (includeText (← d.get "path").asName))
    | .gate =>
      let head ← gateHead (← d.get "name") (← d.get "params") (← d.get "qargs")
      let lines ← (← d.itemsOf "body").mapM fun x => do (← withSemicolon x (← render x)).textOf
      pure (text (head ++ "\n\x7b" ++ String.join (lines.map ("\n  " ++ ·)) ++ "\n\x7d"))
    | .program =>
      let version := text ("OPENQASM " ++ (← d.get "version").asName ++ ";")
      let includes ← (← d.itemsOf "includes").mapM fun x => do
        if let some f ← x.standaloneFault? then throw f
        render x
      let qregs ← (← d.itemsOf "qregs").mapM (registerLine "qreg")
      let cregs ← (← d.itemsOf "cregs").mapM (registerLine "creg")
      let gates ← (← d.declared).mapM fun e => render e.2
      let body ← (← d.itemsOf "body").mapM fun x => do withSemicolon x (← render x)
      let lines ← (version :: includes ++ (qregs ++ cregs).map text ++ gates ++ body).mapM textOf
      pure (text (join "\n" lines ++ "\n"))
  | d => fail (.render (.noForm d.kindName))

/-- The text of a draft that is nested no deeper than a bound. -/
def renderWithin : Nat → Draft → Except Fault Draft
  | 0, _ => .error .selfContaining
  | n + 1, d => renderBy (renderWithin n) d

/-- The text of a draft. A register without an index has its name for a text, whatever that is. -/
def render (d : Draft) : Except Fault Draft := renderWithin d.depth d

/-- The text of a draft with the semicolon that it needs. -/
def statementLine (d : Draft) : Except Fault Draft := do d.withSemicolon (← d.render)

/-- The text of a draft on its own, which the parts of primitive gates have none of. -/
def standalone (d : Draft) : Except Fault Draft := do
  if let some f ← d.standaloneFault? then throw f
  d.render

end QasmCircuit.Draft
