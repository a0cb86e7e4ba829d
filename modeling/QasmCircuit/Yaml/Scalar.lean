import QasmCircuit.Text.Split
import QasmCircuit.Yaml.Timestamp

/-!
# Values of plain scalars

A scalar without quotes stands for a value of the kind that its spelling has: nothing, a truth value, an
integer, a real number, a date, a moment, or else a text. Integers may be binary, octal, hexadecimal or sexagesimal, and
digits may be separated by underscores; the exponent of a real number must have a sign.
-/

namespace QasmCircuit.Yaml

open QasmCircuit.Decimal (splitSign digitsValue)

/-- Digits and the underscores between them. -/
def isDigits (digit : Char → Bool) (cs : List Char) : Bool := cs.all fun c => digit c || c == '_'

/-- Characters without the underscores. -/
def withoutUnderscores (cs : List Char) : List Char := cs.filter (· != '_')

/-- Digits that begin with a proper digit, with underscores among the others. -/
def isNumeral : List Char → Bool
  | [] => false
  | c :: cs => c.isDigit && isDigits Char.isDigit cs

def isBinary (c : Char) : Bool := c == '0' || c == '1'

def isOctal (c : Char) : Bool := '0' ≤ c && c ≤ '7'

/-- The value of digits in a base, of which there has to be one. -/
def inBase (base : Nat) (cs : List Char) : Except Fault Nat :=
  match withoutUnderscores cs with
  | [] => .error (.defect (.noDigits base))
  | ds => .ok (Text.ofDigits base (ds.map Text.hexValue))

/-- The groups of a sexagesimal number, of which there are at least two: the first one is a numeral, and
the others have one or two digits below sixty. -/
def sexagesimal? (cs : List Char) : Option (List (List Char)) :=
  match Text.split ':' cs with
  | first :: second :: rest =>
    if isNumeral first && (second :: rest).all isSixtieth then
      some ((first :: second :: rest).map withoutUnderscores)
    else none
  | _ => none
where
  /-- One digit, or two of which the first is below six. -/
  isSixtieth : List Char → Bool
    | [d] => d.isDigit
    | [t, d] => '0' ≤ t && t ≤ '5' && d.isDigit
    | _ => false

/-- The natural number that a text without a sign stands for, if it is spelled as one. -/
def natural? (cs : List Char) : Option (Except Fault Nat) :=
  match cs with
  | ['0'] => some (.ok 0)
  | '0' :: 'b' :: d :: ds => if isDigits isBinary (d :: ds) then some (inBase 2 (d :: ds)) else none
  | '0' :: 'x' :: d :: ds => if isDigits Text.isHexDigit (d :: ds) then some (inBase 16 (d :: ds)) else none
  | '0' :: ds => if isDigits isOctal ds then some (inBase 8 cs) else none
  | _ =>
    if isNumeral cs then some (inBase 10 cs)
    else (sexagesimal? cs).map fun groups =>
      .ok (groups.foldl (fun n group => n * 60 + digitsValue group) 0)

/-- An exponent with a sign, or nothing. -/
def isExponent : List Char → Bool
  | [] => true
  | e :: sign :: d :: ds =>
    (e == 'e' || e == 'E') && (sign == '+' || sign == '-') && (d :: ds).all Char.isDigit
  | _ => false

/-- The size of a real number in decimal notation. -/
def decimal? (signed : Bool) (cs : List Char) : Option Float :=
  let isDigit := fun c => c.isDigit || c == '_'
  let whole := cs.takeWhile isDigit
  match cs.dropWhile isDigit with
  | '.' :: rest =>
    let fraction := rest.takeWhile isDigit
    let wellFormed := isNumeral whole || (whole.isEmpty && !signed && isNumeral fraction)
    if wellFormed && isExponent (rest.dropWhile isDigit) then
      (Decimal.magnitude? (withoutUnderscores cs)).map fun bits => Decimal.signed false bits
    else none
  | _ => none

/-- The sum of digits in base sixty, the last one first, from a power of the base on. Every power has to be
in the range of a double. -/
def sixtiethsFrom : Nat → Float → List Float → Except Fault Float
  | _, sum, [] => .ok sum
  | power, sum, x :: xs => do
    let unit ← (Datum.int (Nat.pow 60 power)).toReal
    sixtiethsFrom (power + 1) (sum + x * unit) xs

/-- The size of a real number in sexagesimal notation, whose last group has a fraction. -/
def sixtieths? (cs : List Char) : Option (Except Fault Float) :=
  let groups := cs.takeWhile (· != '.')
  match cs.dropWhile (· != '.') with
  | '.' :: fraction =>
    if isDigits Char.isDigit fraction then do
      let gs ← sexagesimal? groups
      let last := (gs.getLastD []) ++ '.' :: withoutUnderscores fraction
      let xs ← (last :: gs.dropLast.reverse).mapM fun g => Decimal.real? (String.ofList g)
      pure (sixtiethsFrom 0 0.0 xs)
    else none
  | _ => none

/-- The size of a real number: in decimal or sexagesimal notation, or an infinity. -/
def magnitude? (signed : Bool) (cs : List Char) : Option (Except Fault Float) :=
  if [".inf", ".Inf", ".INF"].contains (String.ofList cs) then
    some (.ok (Decimal.signed false Decimal.infinityBits))
  else (decimal? signed cs).map .ok <|> sixtieths? cs

/-- The real number that a text stands for, if it is spelled as one. -/
def real? (cs : List Char) : Option (Except Fault Float) :=
  if [".nan", ".NaN", ".NAN"].contains (String.ofList cs) then some (.ok (0.0 / 0.0))
  else
    let (negative, digits) := splitSign cs
    (magnitude? (digits.length != cs.length) digits).map fun x =>
      x.map fun x => if negative then -1.0 * x else x

def plainValue (s : String) : Except Fault Datum :=
  if ["", "~", "null", "Null", "NULL"].contains s then .ok .null
  else if ["yes", "Yes", "YES", "true", "True", "TRUE", "on", "On", "ON"].contains s then .ok (.bool true)
  else if ["no", "No", "NO", "false", "False", "FALSE", "off", "Off", "OFF"].contains s then .ok (.bool false)
  else if s = "=" || s = "<<" then .error .malformedFile
  else
    match real? s.toList with
    | some x => x.map .real
    | none =>
      let (negative, digits) := splitSign s.toList
      match natural? digits with
      | some n => n.map fun n => .int (if negative then -(n : Int) else n)
      | none => (timestamp? s.toList).getD (.ok (.text s))

end QasmCircuit.Yaml
