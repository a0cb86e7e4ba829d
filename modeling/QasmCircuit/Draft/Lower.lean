import QasmCircuit.Draft.Validate
import QasmCircuit.Lowering

/-!
# Circuits from drafts

A draft of a program becomes a circuit in the way a program does, once it has passed the checks. Names may
still lead nowhere, and a value may be unfit for its place: then the step that needs it fails.
-/

namespace QasmCircuit

namespace Draft

/-- A draft as an argument of an operation on circuits. -/
def toArgument (d : Draft) : Argument :=
  match d.plain? with
  | some x => .datum x
  | none => .object d.shown

def expression : Draft → Tree
  | .tree t => t
  | d => .datum (d.plain?.getD .null)

/-- The value of a parameter, with the parameters of a gate bound. -/
def resolve (env : Tree.Env) (d : Draft) : Except Fault Float :=
  match d with
  | .node .symbolic _ => do (← d.get "expr").expression.evaluate env
  | .value x => x.toReal
  | _ => .error .wrongKind

/-- The gate of the library that a primitive gate stands for. -/
def libraryName (op : Draft) : Except Fault Draft := do
  match ← op.key with
  | .text s => do pure (text (← Program.libraryName s))
  | _ => throw .missingName

/-- The gate, the values of the parameters and the operands of a call. -/
def callParts (env : Tree.Env) (d : Draft) : Except Fault (Draft × List Float × List Draft) := do
  if d.isKind .primitive then
    let name ← libraryName (← d.get "op")
    let operands ← (← d.primitiveOperands).mapM toQubit
    pure (name, ← (← (← d.params).items).mapM (resolve env), operands)
  else
    let name ← d.get "name"
    let operands ← d.itemsOf "qargs"
    pure (name, ← (← (← d.params).items).mapM (resolve env), operands)

def boundOperand (formals : Table Argument) (d : Draft) : Except Fault Argument := do
  match formals.find? (← (← d.get "reg").key) with
  | some a => pure a
  | none => throw .missingName

/-- What some formal names stand for. -/
def bindNames {α : Type} (names : List Draft) (values : List α) : Except Fault (Table α) :=
  (names.zip values).foldlM (fun t (name, v) => do pure (t.put (← name.key) v)) []

/-- The parameters of a gate by name, as expressions see them. -/
def environment (t : Table Argument) : Tree.Env :=
  t.filterMap fun (name, v) => match name with
    | .text s => some (s, Action.boundValue v)
    | _ => none

def registerNamed (regs : List Register) (name : Draft) : Except Fault Register := do
  let key ← name.key
  match regs.find? fun r => key.sameKey (.text r.name) with
  | some r => pure r
  | none => throw .missingName

def operandOf (regs : List Register) (d : Draft) : Except Fault Argument := do
  let r ← registerNamed regs (← d.get "reg")
  let index ← d.get "idx"
  if index.isNull then pure (.register r) else do pure (.bit (← r.bit (index.plain?.getD .null)))

/-- The registers of one kind that a draft declares. -/
def declaredRegisters (kind : RegisterKind) (d : Draft) : Except Fault (List Register) := do
  (← d.items).mapM fun entry => do
    let (name, size) ← entry.pair
    Register.make kind name.toArgument size.toArgument

def registers (d : Draft) : Except Fault (List Register) := do
  let quantum ← declaredRegisters .quantum (← d.get "qregs")
  let classical ← declaredRegisters .classical (← d.get "cregs")
  pure ((quantum ++ classical).foldl (fun acc r => Action.putRegister r acc) [])

def gateNamed? (gates : Table Draft) (name : Draft) : Except Fault (Option Draft) := do
  pure (gates.find? (← name.key))

end Draft

namespace Action

open Draft

/-- The gate of a declaration in a draft on some operands, with values for its parameters. It is not
attached. -/
def buildDraft (home : CircuitId) (gates : Draft.Table Draft) :
    Nat → Draft → List Argument → List Argument → Action InstructionId
  | 0, _, _, _ => throw .selfContaining
  | depth + 1, g, values, operands => do
    let i ← newComposite home (← lift (g.get "name")).toArgument operands (.ok values)
    let env ← lift do bindNames (← g.itemsOf "params") values
    let formals ← lift do bindNames (← g.itemsOf "qargs") operands
    (← lift (g.itemsOf "body")).forM fun x => do
      if x.isKind .barrier then
        let bits ← lift do (← x.itemsOf "qargs").mapM (boundOperand formals)
        let _ ← barrier (.gate i) bits
      else
        let (name, params, refs) ← lift (Draft.callParts (environment env) x)
        let bits ← lift (refs.mapM (boundOperand formals))
        match ← lift (gateNamed? gates name) with
        | some nested => attach (.gate i) (← buildDraft home gates depth nested (Program.valueArguments params) bits)
        | none => let _ ← applyGate (.gate i) name.asName bits (.ok (Program.valueArguments params))
    pure i

/-- Applies a gate that a draft declares: all rows are built before the first one is attached. -/
def applyDraft (home : CircuitId) (gates : Draft.Table Draft) (g : Draft) (values : List Float)
    (args : List Argument) : Action Applied := do
  let rows ← lift (gateRows args)
  let is ← rows.mapM (buildDraft home gates (gates.length + 1) g (Program.valueArguments values))
  is.forM (attach (.circuit home))
  pure (applied args is)

def draftGuard (home : CircuitId) (regs : List Register) (d : Draft) : Action (Option Condition) := do
  let guard := ((d.get "condition").toOption).getD Draft.null
  if guard.isNull then pure none
  else
    let (name, expected) ← lift guard.pair
    let r ← lift (registerNamed regs name)
    pure (some (← lift ((← circuit home).checkCondition (.register r) expected.toArgument)))

def lowerDraftStatement (home : CircuitId) (regs : List Register) (gates : Draft.Table Draft) (d : Draft) :
    Action Unit := do
  let guard ← draftGuard home regs d
  if d.isKind .barrier then
    let args ← lift do (← d.itemsOf "qargs").mapM (Draft.operandOf regs)
    let _ ← barrier (.circuit home) args
  else
    let x ← if d.isKind .measure then do
        let q ← lift do Draft.operandOf regs (← d.get "q")
        let c ← lift do Draft.operandOf regs (← d.get "c")
        measure (.circuit home) q c
      else do
        let (name, values, operands) ← lift (Draft.callParts [] d)
        let args ← lift (operands.mapM (Draft.operandOf regs))
        match ← lift (gateNamed? gates name) with
        | some g => applyDraft home gates g values args
        | none => applyGate (.circuit home) name.asName args (.ok (Program.valueArguments values))
    match guard with
    | none => pure ()
    | some (r, n) => conditionApplied x r n

/-- Runs a step of a statement of a draft, whose place is given to problems that have none. -/
def inStatement (d : Draft) (step : Action Unit) : Action Unit :=
  tryCatch step fun
    | .problem what p cause =>
      if p = .origin then do throw ((← lift (Draft.locate what d)).causedBy what.code)
      else throw (.problem what p cause)
    | f => throw f

def lowerDraft (lib : Library) (name : Option Datum) (d : Draft) : Action CircuitId := do
  lift (d.validate lib)
  let regs ← lift d.registers
  let home ← newCircuit name lib (regs.map .register)
  let gates ← lift d.declared
  (← lift (d.itemsOf "body")).forM fun x => do
    let _ ← lift (x.get "line")
    inStatement x (lowerDraftStatement home regs gates x)
  pure home

end Action

end QasmCircuit
