import QasmCircuit.Draft.Render
import QasmCircuit.Program.Validate

/-!
# Checks of drafts

A draft is checked like the program that it stands for: first the version and the includes, then the
signatures of the declared gates, and then every statement in order.
-/

namespace QasmCircuit.Draft

open Program (Signature primitiveSignature?)

/-- Values by key. -/
abbrev Table (α : Type) := List (Datum × α)

/-- The value under a key, if there is one. -/
def Table.find? {α : Type} (t : Table α) (key : Datum) : Option α :=
  (List.find? (fun e => e.1.sameKey key) t).map (·.2)

def Table.put {α : Type} (key : Datum) (value : α) : Table α → Table α
  | [] => [(key, value)]
  | (k, v) :: rest => if k.sameKey key then (k, value) :: rest else (k, v) :: Table.put key value rest

def count (d : Draft) : Except Fault Nat := do pure (← d.items).length

/-- The sizes of declared registers by name, from a place in the list on. -/
def sizeTable : Nat → Table Draft → List Draft → Except Fault (Table Draft)
  | _, t, [] => .ok t
  | n, t, d :: rest => do
    match ← d.items with
    | [name, size] => sizeTable (n + 1) (t.put (← name.key) size) rest
    | items => throw (.defect (.entryLength n items.length))

/-- The sizes of the registers that a field declares by name. -/
def sizesBy (d : Draft) : Except Fault (Table Draft) :=
  match d with
  | .mapping entries => .ok entries
  | d => do sizeTable 0 [] (← d.items)

def gateSignature (gate : Draft) : Except Fault Signature := do
  let params ← (← gate.params).count
  pure ⟨params, ← (← gate.get "qargs").count⟩

def gateSignatures (gates : Table Draft) : Except Fault (Table Signature) :=
  gates.mapM fun (name, g) => do pure (name, ← gateSignature g)

/-- The signature of a gate: of a declared one, of one of the library, or of a primitive one. -/
def signature? (lib : Library) (declared : Table Signature) (name : Datum) : Option Signature :=
  match declared.find? name, name with
  | some s, _ => some s
  | none, .text s =>
    match lib.find? s with
    | some f => some ⟨f.params.length, f.arity⟩
    | none => primitiveSignature? s
  | none, _ => none

/-- Checks that no reference is repeated, on its own or as part of a whole register. -/
def checkDistinct (name : String) (site : Draft) (whole : List Datum) (seen : List (Datum × Datum)) :
    List Draft → Except Fault Unit
  | [] => .ok ()
  | r :: rest => do
    let register ← r.get "reg"
    let index ← r.get "idx"
    let entry := (← register.key, ← index.key)
    let again := seen.any fun e => e.1.sameKey entry.1 && e.2.sameKey entry.2
    if again || (!index.isNull && whole.any entry.1.sameKey) then
      failIn (.semantic (.usedTwice name (indexed register index).asName)) site
    else checkDistinct name site whole (entry :: seen) rest

/-- The registers among some references that stand for all of their bits. -/
def wholeRegisters : List Draft → Except Fault (List Datum)
  | [] => .ok []
  | r :: rest => do
    if (← r.get "idx").isNull then
      let name ← (← r.get "reg").key
      pure (name :: (← wholeRegisters rest))
    else wholeRegisters rest

def checkOperands (name : String) (site : Draft) (operands : List Draft) : Except Fault Unit := do
  checkDistinct name site (← wholeRegisters operands) [] operands

/-- The sizes of the registers with some names, each one once. -/
def sizesOf (regs : Table Draft) : List Datum → List Datum → Except Fault (List Datum)
  | found, [] => .ok found.reverse
  | found, name :: rest =>
    match regs.find? name with
    | none => sizesOf regs found rest
    | some size => do
      let n ← size.key
      sizesOf regs (if found.any n.sameKey then found else n :: found) rest

/-- Some sizes in ascending order. -/
def sorted : List Datum → Except Fault (List Datum)
  | [] => .ok []
  | n :: rest => do insert n (← sorted rest)
where
  /-- Puts a size in front of the first one that is not below it. -/
  insert (n : Datum) : List Datum → Except Fault (List Datum)
    | [] => .ok [n]
    | m :: rest => do
      match n.atMost? m with
      | some true => pure (n :: m :: rest)
      | some false => pure (m :: (← insert n rest))
      | none => throw .wrongKind

def checkCall (lib : Library) (declared : Table Signature) (regs : Table Draft) (d : Draft) : Except Fault Unit := do
  let isPrimitive := d.isKind .primitive
  let name ← d.get (if isPrimitive then "op" else "name")
  let refs ← if isPrimitive then do pure (Draft.list (← (← d.primitiveOperands).mapM toQubit)) else d.get "qargs"
  match signature? lib declared (← name.key) with
  | none => failIn (.resolution (.unknownGate name.asName)) d
  | some s =>
    let given ← (← d.params).count
    if given ≠ s.params then failIn (.semantic (.paramCount name.asName s.params given)) d
    let operands ← refs.items
    if (operands.length : Int) ≠ s.qubits then
      failIn (.semantic (.operandCount name.asName s.qubits operands.length)) d
    checkOperands name.asName d operands
    let sizes ← sizesOf regs [] (← wholeRegisters operands)
    if 1 < sizes.length then
      failIn (.semantic (.callSizes name.asName ((← sorted sizes).map Datum.shown))) d

def checkMeasure (qregs cregs : Table Draft) (d : Draft) : Except Fault Unit := do
  let q ← d.get "q"
  let c ← d.get "c"
  if (← q.get "idx").isNull then
    if (← c.get "idx").isNull then
      let qubits ← q.get "reg"
      let clbits ← c.get "reg"
      let left := qregs.find? (← qubits.key)
      let right := cregs.find? (← clbits.key)
      match left, right with
      | some m, some n =>
        if !(m.isNull || n.isNull || m.same n) then
          failIn (.semantic (.measureSizes qubits.asName clbits.asName)) d
      | _, _ => pure ()

def isCall (d : Draft) : Bool := d.isKind .call || d.isKind .primitive

def checkStatement (lib : Library) (declared : Table Signature) (qregs cregs : Table Draft) (d : Draft) :
    Except Fault Unit := do
  if d.isCall then checkCall lib declared qregs d
  else if d.isKind .barrier then checkOperands "barrier" d (← d.itemsOf "qargs")
  else if d.isKind .measure then checkMeasure qregs cregs d

def checkInclude (d : Draft) : Except Fault Unit := do
  let path ← d.get "path"
  let name ← path.key
  if !name.sameKey (.text "qelib1.inc") then failIn (.resolution (.unresolvedInclude path.asName)) d

def validate (lib : Library) (d : Draft) : Except Fault Unit := do
  let version ← d.get "version"
  if !version.isText "2.0" then fail (.source (.version version.asName))
  (← d.itemsOf "includes").forM checkInclude
  let gates ← d.declared
  let declared ← gateSignatures gates
  let qregs ← sizesBy (← d.get "qregs")
  let cregs ← sizesBy (← d.get "cregs")
  gates.forM fun (_, g) => do
    (← g.itemsOf "body").forM fun x => do if x.isCall then checkCall lib declared [] x
  (← d.itemsOf "body").forM (checkStatement lib declared qregs cregs)

end QasmCircuit.Draft
