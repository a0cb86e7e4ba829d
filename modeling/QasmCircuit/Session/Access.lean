import QasmCircuit.Session.Value

/-!
# Looking into the values of a session

Members, lengths, equality and identity of values.
-/

namespace QasmCircuit.Session

def member (v : Value) (index : Datum) : Step Value := do
  match v with
  | .register _ r => pure (.bit (← newObject) (← ofExcept (r.bit index)))
  | .set s => do ofExcept (Datum.pick (← members s) index)
  | .datum o => do pure (.datum (← ofExcept (o.member (← newMark) index)))
  | _ => stop .wrongKind

/-- The instructions that a circuit or a gate with a body holds. -/
def instructions? (v : Value) : Step (Option (List InstructionId)) := do
  match v with
  | .circuit c => do pure (some (← act (Action.circuit c)).data)
  | .instruction i => match (← act (Action.instruction i)).operation with
    | .composite _ body _ => pure (some body)
    | _ => pure none
  | _ => pure none

/-- The instruction of a circuit or a gate at an index, or the member of another value. -/
def item (v : Value) (index : Datum) : Step Value := do
  match ← instructions? v with
  | some is => do pure (.instruction (← ofExcept (Datum.pick is index)))
  | none => member v index

/-- How many members a value has, if their number can be counted. -/
def length (v : Value) : Step Nat := do
  match v with
  | .register _ r => if r.size < Register.lengthLimit then pure r.size else stop .tooLarge
  | .circuit c => do pure (← act (Action.circuit c)).data.length
  | .set s => do pure (← members s).length
  | .matrix _ m => pure m.rows
  | .datum o => match o.length? with
    | some n => pure n
    | none => stop .wrongKind
  | _ => stop .wrongKind

def same : Value → Value → Bool
  | .datum a, .datum b => a.isSame b
  | .register i _, .register k _ | .bit i _, .bit k _ | .matrix i _, .matrix k _ => i == k
  | .circuit a, .circuit b | .instruction a, .instruction b | .set a, .set b => a == b
  | _, _ => false

def equal : Value → Value → Bool
  | .datum a, .datum b => a.toDatum.same b.toDatum
  | .register _ a, .register _ b => a == b
  | .bit _ a, .bit _ b => a.same b
  | a, b => same a b

/-- Whether a circuit has a register that is equal to a value. Only what has a name can be asked for. -/
def hasRegister (c : Circuit) (v : Value) : Step Bool := do
  match v with
  | .register _ r => pure (c.hasRegister r)
  | .instruction _ => pure false
  | .circuit other => match (← act (Action.circuit other)).name with
    | .list _ | .mapping _ => stop .wrongKind
    | _ => pure false
  | _ => stop .missingPart

end QasmCircuit.Session
