import QasmCircuit.Text.Quoted
import QasmCircuit.Decimal.Multiple
import QasmCircuit.Calendar

/-!
# Plain data

A `Datum` is a value as it comes from a data file or from a caller: nothing, a truth value, a number, a
text, a date, a moment, a list or a mapping in insertion order. `Datum.shown` is its text inside messages.
-/

namespace QasmCircuit

/-- How many digits an integer may have that is written or read. -/
def Text.digitLimit : Nat := 4300

/-- Whether an integer has no more digits than can be written or read. -/
@[irreducible]
def Text.isShort (n : Int) : Bool := n.natAbs < Nat.pow 10 Text.digitLimit

open Text

/-- A plain value. -/
inductive Datum where
  | null
  | bool (b : Bool)
  | int (n : Int)
  | real (x : Float)
  | text (s : String)
  | date (d : Date)
  | moment (m : Moment)
  | list (items : List Datum)
  | mapping (entries : List (Datum × Datum))
deriving Inhabited

namespace Datum

/-- The name of the kind of a value, as error messages give it. -/
def kindName : Datum → String
  | .null => "NoneType"
  | .bool _ => "bool"
  | .int _ => "int"
  | .real _ => "float"
  | .text _ => "str"
  | .date _ => "date"
  | .moment _ => "datetime"
  | .list _ => "list"
  | .mapping _ => "dict"

def boolText (b : Bool) : String := if b then "True" else "False"

mutual

/-- The text of a value inside a message. -/
def shown : Datum → String
  | .null => "None"
  | .bool b => boolText b
  | .int n => toString n
  | .real x => Decimal.text x
  | .text s => quoted s
  | .date d => d.shown
  | .moment m => m.shown
  | .list items => "[" ++ join ", " (shownItems items) ++ "]"
  | .mapping entries => "\x7b" ++ join ", " (shownEntries entries) ++ "\x7d"

def shownItems : List Datum → List String
  | [] => []
  | item :: rest => item.shown :: shownItems rest

def shownEntries : List (Datum × Datum) → List String
  | [] => []
  | (key, value) :: rest => (key.shown ++ ": " ++ value.shown) :: shownEntries rest

end

mutual

/-- Whether a value has a text: all integers in it are short. -/
def hasText : Datum → Bool
  | .int n => isShort n
  | .list items => itemsHaveText items
  | .mapping entries => entriesHaveText entries
  | _ => true

def itemsHaveText : List Datum → Bool
  | [] => true
  | item :: rest => item.hasText && itemsHaveText rest

def entriesHaveText : List (Datum × Datum) → Bool
  | [] => true
  | (key, value) :: rest => key.hasText && value.hasText && entriesHaveText rest

end

/-- The text of a value as a name: a text stands for itself, and a date or a moment is written out. -/
def asName : Datum → String
  | .text s => s
  | .date d => d.text
  | .moment m => m.text
  | d => d.shown

/-- The number that a value stands for, where truth values count as zero and one. -/
def number? : Datum → Option (Int ⊕ Float)
  | .bool b => some (.inl (if b then 1 else 0))
  | .int n => some (.inl n)
  | .real x => some (.inr x)
  | _ => none

def sameNumber : Int ⊕ Float → Int ⊕ Float → Bool
  | .inl m, .inl n => m == n
  | .inr x, .inr y => x == y
  | .inl m, .inr y => Decimal.toInt? y == some m
  | .inr x, .inl n => Decimal.toInt? x == some n

/-- Whether a number is at most another one. An integer is not rounded for that. -/
def numberAtMost : Int ⊕ Float → Int ⊕ Float → Bool
  | .inl m, .inl n => m ≤ n
  | .inr x, .inr y => x ≤ y
  | .inl m, .inr y => if y.isFinite then (Decimal.Multiple.ofInt m).atMost (.ofReal y) else 0.0 < y
  | .inr x, .inl n => if x.isFinite then (Decimal.Multiple.ofReal x).atMost (.ofInt n) else x < 0.0

/-- Whether a value is at most another one. Only two numbers and two texts have an order. -/
def atMost? : Datum → Datum → Option Bool
  | .text s, .text t => some (s ≤ t)
  | a, b => match number? a, number? b with
    | some x, some y => some (numberAtMost x y)
    | _, _ => none

/-- Whether two values are equal as keys of a mapping. -/
def sameKey : Datum → Datum → Bool
  | .null, .null => true
  | .text a, .text b => a == b
  | .date a, .date b => a == b
  | .moment a, .moment b => a.same b
  | a, b => match number? a, number? b with
    | some x, some y => sameNumber x y
    | _, _ => false

mutual

/-- Whether two values are equal: lists item by item, mappings whatever the order of their entries. -/
def same : Datum → Datum → Bool
  | .list xs, .list ys => sameItems xs ys
  | .mapping es, .mapping fs => es.length == fs.length && sameEntries es fs
  | .list _, _ => false
  | .mapping _, _ => false
  | a, b => sameKey a b

/-- Whether two lists are equal item by item. -/
def sameItems : List Datum → List Datum → Bool
  | [], [] => true
  | x :: xs, y :: ys => x.same y && sameItems xs ys
  | _, _ => false

def sameEntries : List (Datum × Datum) → List (Datum × Datum) → Bool
  | [], _ => true
  | (k, v) :: rest, fs =>
    (match fs.find? fun e => sameKey k e.1 with
      | some e => v.same e.2
      | none => false) && sameEntries rest fs

end

/-- Whether two keys of one data file are the same. All that is written there as not a number is one value. -/
def sameFileKey : Datum → Datum → Bool
  | .real x, .real y => x == y || (x.isNaN && y.isNaN)
  | a, b => sameKey a b

/-- Puts an entry of a data file into a list of entries: a key that is present keeps its place and takes the
new value. -/
def insertEntry (entries : List (Datum × Datum)) (key value : Datum) : List (Datum × Datum) :=
  match entries with
  | [] => [(key, value)]
  | (k, v) :: rest => if sameFileKey k key then (k, value) :: rest else (k, v) :: insertEntry rest key value

def field? (entries : List (Datum × Datum)) (name : String) : Option Datum :=
  (entries.find? fun e => sameKey e.1 (.text name)).map (·.2)

end Datum

end QasmCircuit
