import QasmCircuit.Fault

/-!
# Gate libraries

A library is a table of gate families. A family has a signature, an inverse, which is a family of the
same signature together with a rule for the parameters, and possibly a controlled form, which is a
family with one more qubit and the same parameters.
-/

namespace QasmCircuit

/-- One family of atomic gates. -/
structure Family where
  name : String
  /-- Names of the parameters, in the order of a call. -/
  params : List String
  /-- Number of qubits. -/
  arity : Int
  /-- The family of the inverse. -/
  inverseName : String
  /-- For each parameter of the inverse, the index of the parameter it comes from and its factor. -/
  inverseParams : List (Int × Int)
  /-- The family with one more qubit in front that controls this one. -/
  controlled : Option String
deriving Repr, DecidableEq

namespace Family

/-- The rule that keeps every parameter. -/
def keepAll (count : Nat) : List (Int × Int) := (List.range count).map fun (i : Nat) => ((i : Int), (1 : Int))

/-- Whether applying a gate twice is the identity. -/
def selfInverse (f : Family) : Bool :=
  f.inverseName == f.name && f.inverseParams == keepAll f.params.length

/-- A value times an integer factor. -/
def scale (factor : Int) (x : Float) : Except Fault Float :=
  match Decimal.ofInt? factor with
  | some k => .ok (k * x)
  | none => .error .tooLarge

/-- A plain value times an integer factor. A text or a list is repeated. -/
def scaleDatum (factor : Int) : Datum → Except Fault Datum
  | .bool b => .ok (.int (if b then factor else 0))
  | .int n => .ok (.int (factor * n))
  | .real x => (scale factor x).map .real
  | .text s => .ok (.text (String.join (List.replicate factor.toNat s)))
  | .list items => .ok (.list (List.replicate factor.toNat items).flatten)
  | _ => .error .wrongKind

def invertParams (f : Family) (values : List Float) : Except Fault (List Float) :=
  f.inverseParams.mapM fun (index, factor) =>
    match Sequence.pick? values index with
    | some x => scale factor x
    | none => .error .missingItem

/-- The parameters of the inverse gate, where any value may hold those of the gate. -/
def invertData (f : Family) (values : Datum) : Except Fault (List Datum) :=
  f.inverseParams.mapM fun (index, factor) => do scaleDatum factor (← values.member (.int index))

end Family

/-- A table of families in the order in which they were put in, one for each name. -/
structure Library where
  families : List Family
deriving Repr, DecidableEq

namespace Library

def find? (lib : Library) (name : String) : Option Family :=
  lib.families.find? fun f => f.name == name

def contains (lib : Library) (name : String) : Bool := (lib.find? name).isSome

/-- Puts a family into a list: one of the same name gives up its place to it. -/
def insertInto (f : Family) : List Family → List Family
  | [] => [f]
  | g :: rest => if g.name == f.name then f :: rest else g :: insertInto f rest

def insert (lib : Library) (f : Family) : Library := ⟨insertInto f lib.families⟩

def ofFamilies (fs : List Family) : Library := fs.foldl insert ⟨[]⟩

/-- The family with a name, which has to be there. -/
def lookup (lib : Library) (name : String) : Except Fault Family :=
  match lib.find? name with
  | some f => .ok f
  | none => fail (.resolution (.unknownGate name))

/-- The family under a value of any kind, which has to be there. -/
def get (lib : Library) : Datum → Except Fault Family
  | .text name => match lib.find? name with
    | some f => .ok f
    | none => .error .missingName
  | .list _ | .mapping _ => .error .wrongKind
  | _ => .error .missingName

/-- The family under a value of any kind. Collections cannot be looked up, and no family is under anything
but a text. -/
def lookupDatum (lib : Library) : Datum → Except Fault Family
  | .text name => lib.lookup name
  | .list _ | .mapping _ => .error .wrongKind
  | d => fail (.resolution (.unknownGate d.asName))

end Library

end QasmCircuit
