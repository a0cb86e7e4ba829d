import QasmCircuit.Fault

/-!
# Objects

A plain value of a session is an object, and so is every value inside it: by its mark an object is told from
an equal one. A copy of a list or a mapping is a new object around the same members. Some values are one object
wherever they are made: nothing, truth values, small integers, the empty text and texts of one character below
256.
-/

namespace QasmCircuit.Session

/-- What tells an object from an equal one. -/
inductive Mark where
  /-- The place in the value that a step made. -/
  | made (object : Nat) (place : List Nat)
  /-- The place where a text is kept. -/
  | kept (place : List String)
deriving Repr, DecidableEq

/-- A plain value with marks. -/
inductive Object where
  | atom (mark : Mark) (value : Datum)
  | list (mark : Mark) (items : List Object)
  | mapping (mark : Mark) (entries : List (Datum × Object))

namespace Object

mutual

/-- A plain value as an object, of which it is the value at a place. -/
def ofDatum (object : Nat) (place : List Nat) : Datum → Object
  | .list items => .list (.made object place) (ofItems object place 0 items)
  | .mapping entries => .mapping (.made object place) (ofEntries object place 0 entries)
  | d => .atom (.made object place) d

/-- The items of a list as objects, from an index on. -/
def ofItems (object : Nat) (place : List Nat) (index : Nat) : List Datum → List Object
  | [] => []
  | d :: rest => ofDatum object (index :: place) d :: ofItems object place (index + 1) rest

/-- The entries of a mapping with objects, from an index on. -/
def ofEntries (object : Nat) (place : List Nat) (index : Nat) : List (Datum × Datum) → List (Datum × Object)
  | [] => []
  | (key, d) :: rest => (key, ofDatum object (index :: place) d) :: ofEntries object place (index + 1) rest

end

mutual

def toDatum : Object → Datum
  | .atom _ d => d
  | .list _ items => .list (toData items)
  | .mapping _ entries => .mapping (entriesToData entries)

/-- The plain values that some objects are. -/
def toData : List Object → List Datum
  | [] => []
  | o :: rest => o.toDatum :: toData rest

def entriesToData : List (Datum × Object) → List (Datum × Datum)
  | [] => []
  | (key, o) :: rest => (key, o.toDatum) :: entriesToData rest

end

def mark : Object → Mark
  | .atom m _ | .list m _ | .mapping m _ => m

/-- Whether two plain values are one object whenever they are equal. -/
def sameAtom : Datum → Datum → Bool
  | .null, .null => true
  | .bool x, .bool y => x == y
  | .int x, .int y => x == y && -5 ≤ x && x ≤ 256
  | .text x, .text y => x == y && (x.isEmpty || x.length == 1 && x.toList.all (·.toNat < 256))
  | _, _ => false

def isSame (a b : Object) : Bool := a.mark == b.mark || sameAtom a.toDatum b.toDatum

/-- The number of members of a list, a text or a mapping. -/
def length? : Object → Option Nat
  | .atom _ (.text s) => some s.length
  | .list _ items => some items.length
  | .mapping _ entries => some entries.length
  | _ => none

/-- The member of a value: an item of a list, a character of a text, which is a new object with a mark, or the
value under a key of a mapping. -/
def member (o : Object) (new : Mark) (index : Datum) : Except Fault Object :=
  match o, index with
  | .list _ items, index => Datum.pick items index
  | .mapping _ _, .list _ | .mapping _ _, .mapping _ => .error .wrongKind
  | .mapping _ entries, key => match entries.find? fun e => Datum.sameKey e.1 key with
    | some e => .ok e.2
    | none => .error .missingName
  | .atom _ d, index => (d.member index).map (.atom new)

/-- The sum of two values: lists are joined around the same members, and an empty text adds nothing. -/
def plus (a : Object) (new : Mark) (b : Object) : Except Fault Object :=
  match a, b with
  | .list _ xs, .list _ ys => .ok (.list new (xs ++ ys))
  | .atom _ (.text ""), .atom _ (.text _) => .ok b
  | .atom _ (.text _), .atom _ (.text "") => .ok a
  | _, _ => (a.toDatum.plus b.toDatum).map (.atom new)

/-- The members that a value gives one by one, the new ones with marks of their own. -/
def members (new : Nat) : Object → Except Fault (List Object)
  | .list _ items => .ok items
  | .mapping _ entries => .ok (ofItems new [] 0 (entries.map (·.1)))
  | .atom _ (.text s) => .ok (ofItems new [] 0 (s.toList.map fun c => .text (String.singleton c)))
  | .atom _ _ => .error .wrongKind

mutual

/-- Puts a new state in the place of the object with a mark, wherever it is. -/
def update (m : Mark) (state : Object) : Object → Object
  | .atom k d => if k = m then state else .atom k d
  | .list k items => if k = m then state else .list k (updateItems m state items)
  | .mapping k entries => if k = m then state else .mapping k (updateEntries m state entries)

/-- Puts a new state in the place of an object among some items. -/
def updateItems (m : Mark) (state : Object) : List Object → List Object
  | [] => []
  | o :: rest => update m state o :: updateItems m state rest

/-- Puts a new state in the place of an object among some entries. -/
def updateEntries (m : Mark) (state : Object) : List (Datum × Object) → List (Datum × Object)
  | [] => []
  | (key, o) :: rest => (key, update m state o) :: updateEntries m state rest

end

/-- A text that is kept at a place. -/
def keptText (place : List String) (s : String) : Object := .atom (.kept place) (.text s)

end Object

end QasmCircuit.Session
