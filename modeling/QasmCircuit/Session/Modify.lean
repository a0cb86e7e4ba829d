import QasmCircuit.Session.Access

/-!
# Changing the values of a session

Modifiers act on an instruction, on every member of a set, and inversion also on a circuit. The members of a
set are tried in order, and the first one that a modifier cannot act on makes it fail.
-/

namespace QasmCircuit.Session

/-- Checks that a value can be conditioned and controlled. -/
def checkModifiable : Value → Step Unit
  | .instruction _ | .set _ => pure ()
  | _ => stop .missingPart

def leading : List Value → List InstructionId
  | .instruction i :: rest => i :: leading rest
  | _ => []

/-- Changes all members of a set, which have to be instructions: those in front of the first one that is none
are checked before the step fails. -/
def modifyMembers (check change : List InstructionId → Action Unit) (id : SetId) : Step Unit := do
  let vs ← members id
  let is := leading vs
  if is.length = vs.length then act (change is)
  else do
    act (check is)
    stop .missingPart

def condition (v : Value) (register expected : Argument) : Step Unit :=
  match v with
  | .instruction i => act do Action.condition (← Action.depth) i register expected
  | .set s => modifyMembers (Action.checkConditionOnAll · register expected) (Action.conditionAll · register expected) s
  | _ => stop .missingPart

def control (v : Value) (regs : List Argument) : Step Unit :=
  match v with
  | .instruction i => act do Action.control (← Action.depth) i regs
  | .set s => modifyMembers (Action.checkControlsOfAll · regs) (Action.controlAll · regs) s
  | _ => stop .missingPart

/-- The inverse of a value: a circuit is inverted in place, and a set gives a new set. The first argument bounds
how deep sets are nested. -/
def inverseWithin : Nat → Value → Step Value
  | 0, _ => stop .selfContaining
  | depth + 1, v => do
    match v with
    | .circuit c => do
      act (Action.inverseCircuit c)
      pure v
    | .instruction i => do pure (.instruction (← act do Action.inverse (← Action.depth) i))
    | .set s => do createSet (← (← members s).mapM (inverseWithin depth))
    | _ => stop .missingPart

def inverse (v : Value) : Step Value := do inverseWithin (← setDepth) v

def copy (v : Value) : Step Value := do
  match v with
  | .instruction i => do pure (.instruction (← act do Action.copy (← Action.depth) i))
  | .datum (.list _ items) => do pure (.datum (.list (← newMark) items))
  | .datum (.mapping _ entries) => do pure (.datum (.mapping (← newMark) entries))
  | .matrix _ m => do pure (.matrix (← newObject) m)
  | _ => stop .missingPart

def attach (home : Container) (v : Value) : Step Value := do
  match v with
  | .circuit other => do
    act (Action.refuseCircuit home other)
    stop .missingPart
  | _ => do
    let i ← instructionId v
    act (Action.attach home i)
    pure v

/-- Applies an instruction again to a value. An instruction without a body is none to attach to: what has to be
looked up in its circuit is looked up before the step fails. -/
def reapply (i : InstructionId) (target : Value) : Step Value := do
  match target, ← instructions? target with
  | .instruction j, none => do
    let x ← act (Action.instruction i)
    match x.operation with
    | .atomic _ => stop .missingPart
    | _ => do
      let home := (← act (Action.instruction j)).circuit
      let _ ← act do Action.renew (Action.reapply (← Action.depth)) i home
      stop .missingPart
  | _, _ => do
    let home ← container target
    pure (.instruction (← act do Action.reapply (← Action.depth) i home))

/-- The sum of two values: two circuits give a new one. -/
def sum (a b : Value) : Step Value := do
  match a, b with
  | .circuit c, .circuit d => do pure (.circuit (← act (Action.concat c d)))
  | .circuit c, _ => do
    let _ ← act (Action.duplicate c)
    stop .missingPart
  | .datum x, .datum y => do pure (.datum (← ofExcept (x.plus (← newMark) y)))
  | _, _ => stop .wrongKind

/-- Puts a new state in the place of an object, wherever a value holds it. -/
def Value.update (m : Mark) (state : Object) : Value → Value
  | .datum o => .datum (Object.update m state o)
  | v => v

/-- Puts a new state in the place of an object in all variables and sets. -/
def updateObject (m : Mark) (state : Object) : Step Unit :=
  modify fun s => { s with
    bindings := s.bindings.map fun (name, v) => (name, v.update m state)
    sets := s.sets.map fun vs => vs.map (Value.update m state) }

/-- Adds the members of a value to a list, which stays the same object. -/
def extendList (m : Mark) (items : List Object) : Value → Step Value
  | .datum o => do
    let state := Object.list m (items ++ (← ofExcept (o.members (← newObject))))
    updateObject m state
    pure (.datum state)
  | _ => stop .wrongKind

/-- Adds a value to another one, in place if that is a circuit or a list. -/
def addTo (a b : Value) : Step Value := do
  match a with
  | .circuit c => do
    act (Action.extend c (← circuitId b))
    pure a
  | .datum (.list m items) => extendList m items b
  | _ => sum a b

/-- Extends a circuit by a value, or a list, which gives nothing. The value is asked for last. -/
def extend (a : Value) (b : Step Value) : Step Value := do
  match a with
  | .circuit _ => do addTo a (← b)
  | .datum (.list m items) => do
    let _ ← extendList m items (← b)
    plain .null
  | _ => stop .missingPart

end QasmCircuit.Session
