import QasmCircuit.Fault

/-!
# Dates and moments in data files

A date is written as four, two and two digits between dashes. A moment is a date, whose month and day may
have one digit, and behind it a time of day, a fraction of a second and an offset.
-/

namespace QasmCircuit.Yaml

open QasmCircuit.Decimal (digitsValue)

/-- Some digits in front of a text, and the rest, if there are as many. -/
def digits? (count : Nat) (cs : List Char) : Option (List Char × List Char) :=
  let ds := cs.take count
  if ds.length = count && ds.all Char.isDigit then some (ds, cs.drop count) else none

/-- One or two digits in front of a text, and the rest. -/
def oneOrTwo? (cs : List Char) : Option (List Char × List Char) := digits? 2 cs <|> digits? 1 cs

/-- A text behind the character that it must begin with. -/
def behind? (c : Char) : List Char → Option (List Char)
  | d :: rest => if d = c then some rest else none
  | [] => none

/-- A text behind what divides a date from a time: the letter T, or blanks. -/
def behindDate? (cs : List Char) : Option (List Char) :=
  match cs with
  | 'T' :: rest | 't' :: rest => some rest
  | cs =>
    let rest := cs.dropWhile fun c => c == ' ' || c == '\t'
    if rest.length = cs.length then none else some rest

/-- The microseconds of a fraction, and the rest. -/
def fraction (cs : List Char) : Nat × List Char :=
  match cs with
  | '.' :: rest =>
    let ds := (rest.takeWhile Char.isDigit).take 6
    (digitsValue (ds ++ List.replicate (6 - ds.length) '0'), rest.dropWhile Char.isDigit)
  | cs => (0, cs)

/-- The offset, in minutes, that the end of a moment gives, or nothing at the end of the text. -/
def offset? (cs : List Char) : Option (Option Int) :=
  if cs.isEmpty then some none
  else match cs.dropWhile fun c => c == ' ' || c == '\t' with
    | ['Z'] => some (some 0)
    | sign :: rest => do
      let (hours, rest) ← oneOrTwo? rest
      let minutes ← if rest.isEmpty then some [] else do
        let (minutes, rest) ← digits? 2 (← behind? ':' rest)
        if rest.isEmpty then some minutes else none
      let size : Int := (digitsValue hours * 60 + digitsValue minutes : Nat)
      if sign = '+' then some (some size) else if sign = '-' then some (some (-size)) else none
    | [] => none

def time? (date : Date) (cs : List Char) : Option Moment := do
  let (hour, cs) ← oneOrTwo? cs
  let (minute, cs) ← digits? 2 (← behind? ':' cs)
  let (second, cs) ← digits? 2 (← behind? ':' cs)
  let (microsecond, cs) := fraction cs
  let offset ← offset? cs
  pure ⟨date, digitsValue hour, digitsValue minute, digitsValue second, microsecond, offset⟩

/-- A value that has to be in range. -/
def inRange (check : Except OutOfRange Unit) (d : Datum) : Except Fault Datum :=
  match check with
  | .ok () => .ok d
  | .error what => .error (.defect (.outOfRange what))

/-- The date or moment that a text stands for, if it is spelled as one. -/
def timestamp? (cs : List Char) : Option (Except Fault Datum) := do
  let (year, cs) ← digits? 4 cs
  let (month, cs) ← oneOrTwo? (← behind? '-' cs)
  let (day, cs) ← oneOrTwo? (← behind? '-' cs)
  let date : Date := ⟨digitsValue year, digitsValue month, digitsValue day⟩
  if cs.isEmpty then
    if month.length = 2 && day.length = 2 then some (inRange date.check (.date date)) else none
  else
    let m ← time? date (← behindDate? cs)
    some (inRange m.check (.moment m))

end QasmCircuit.Yaml
