import QasmCircuit.Circuit.Extend
import QasmCircuit.Circuit.Shown
import QasmCircuit.Complex
import QasmCircuit.Matrix
import QasmCircuit.Session.Object

/-!
# Sessions

A session builds circuits step by step and keeps what the steps give in variables. A `Step` can stop because
a variable is not bound or because an operation failed; what was changed before it stopped stays changed.
-/

namespace QasmCircuit

/-- The number of a set. -/
abbrev SetId := Nat

/-- What a step of a session gives. A register, a bit or a matrix carries the number of the object that it is,
by which one object is told from an equal one. -/
inductive Session.Value where
  | datum (o : Session.Object)
  | register (object : Nat) (r : Register)
  | bit (object : Nat) (b : Bit)
  | matrix (object : Nat) (m : Matrix Complex)
  | circuit (id : CircuitId)
  | instruction (id : InstructionId)
  | set (id : SetId)

/-- The state of a session: circuits, sets of values, and variables. -/
structure Session where
  store : Store := {}
  sets : Array (List Session.Value) := #[]
  bindings : List (String × Session.Value) := []
  /-- How many objects have been numbered. -/
  objects : Nat := 0

namespace Session

/-- Why a step stops. -/
inductive Stop where
  /-- A variable is not bound. -/
  | unbound
  | fault (f : Fault)

/-- A step of a session. -/
abbrev Step := ExceptT Stop (StateM Session)

def lookup? (s : Session) (name : String) : Option Value := s.bindings.lookup name

def bind (s : Session) (name : String) (v : Value) : Session :=
  { s with bindings := (name, v) :: s.bindings.filter fun e => e.1 != name }

def stop {α : Type} (f : Fault) : Step α := throw (.fault f)

/-- A step on the circuits of a session. -/
def act {α : Type} (a : Action α) : Step α := do
  let s ← get
  let (r, store) := a.run.run s.store
  set { s with store }
  match r with
  | .ok x => pure x
  | .error f => stop f

def ofExcept {α : Type} : Except Fault α → Step α
  | .ok x => pure x
  | .error f => stop f

/-- The value of a variable, which has to be bound. -/
def lookup (name : String) : Step Value := do
  match (← get).lookup? name with
  | some v => pure v
  | none => throw .unbound

def newObject : Step Nat := modifyGet fun s => (s.objects, { s with objects := s.objects + 1 })

/-- The mark of a new object. -/
def newMark : Step Mark := do pure (.made (← newObject) [])

def plain (d : Datum) : Step Value := do pure (.datum (.ofDatum (← newObject) [] d))

def text (s : String) : Step Value := plain (.text s)

def createSet (members : List Value) : Step Value :=
  modifyGet fun s => (.set s.sets.size, { s with sets := s.sets.push members })

def members (id : SetId) : Step (List Value) := do
  match (← get).sets[id]? with
  | some vs => pure vs
  | none => stop .missingItem

def addMember (id : SetId) (v : Value) : Step Unit := do
  let vs ← members id
  modify fun s => { s with sets := s.sets.setIfInBounds id (vs ++ [v]) }

/-- A bound on how deep sets can be nested, unless one contains itself. -/
def setDepth : Step Nat := do pure ((← get).sets.size + 1)

def ofApplied : Applied → Step Value
  | .single i => pure (.instruction i)
  | .group is => createSet (is.map .instruction)

def circuitId : Value → Step CircuitId
  | .circuit c => pure c
  | _ => stop .missingPart

def instructionId : Value → Step InstructionId
  | .instruction i => pure i
  | _ => stop .missingPart

/-- The container that a value is: a circuit, or a gate with a body. -/
def container : Value → Step Container
  | .circuit c => pure (.circuit c)
  | .instruction i => do
    let _ ← act (Action.body i)
    pure (.gate i)
  | _ => stop .missingPart

def argument : Value → Step Argument
  | .datum o => pure (.datum o.toDatum)
  | .register _ r => pure (.register r)
  | .bit _ b => pure (.bit b)
  | .matrix _ _ => pure (.object "array")
  | .circuit c => do pure (.object (← act (Action.lift (← act (Action.circuit c)).shown)))
  | .instruction i => do pure (.object (← act (Action.instruction i)).shown)
  | .set _ => pure (.object "InstructionSet")

end Session

end QasmCircuit
