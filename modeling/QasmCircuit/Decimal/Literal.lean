import QasmCircuit.Text.Blank
import QasmCircuit.Text.Digit
import QasmCircuit.Decimal.Nearest

/-!
# Numbers read from text

A number may have blanks around it, a sign, digits of any script and a single underscore between two
digits. A real number is written with a point, with an exponent or by name (`inf`, `infinity`, `nan`).
-/

namespace QasmCircuit.Decimal

open QasmCircuit.Text

/-- Removes the underscores between two digits, and refuses any other. The first argument is the
character before. -/
def dropUnderscores : Char → List Char → Option (List Char)
  | before, [] => if before = '_' then none else some []
  | before, c :: cs =>
    if c = '_' then
      if before.isDigit then dropUnderscores c cs else none
    else if before = '_' && !c.isDigit then none
    else (dropUnderscores c cs).map (c :: ·)

/-- Writes decimal digits of any script as ASCII digits. -/
def asciiDigits (cs : List Char) : List Char :=
  cs.map fun c => match digitValue c with
    | some d => Char.ofNat (48 + d)
    | none => c

/-- Splits a sign off; the flag is set for a minus. -/
def splitSign : List Char → Bool × List Char
  | '-' :: cs => (true, cs)
  | '+' :: cs => (false, cs)
  | cs => (false, cs)

/-- The digits in front, and what follows them. -/
def splitDigits (cs : List Char) : List Char × List Char :=
  (cs.takeWhile Char.isDigit, cs.dropWhile Char.isDigit)

def digitsValue (ds : List Char) : Nat := ofDigits 10 (ds.map fun c => c.toNat - 48)

/-- The exponent at the end of a number; no text at all is the exponent zero. -/
def exponent? : List Char → Option Int
  | [] => some 0
  | c :: cs =>
    if c = 'e' || c = 'E' then
      let (negative, cs) := splitSign cs
      let (ds, rest) := splitDigits cs
      if ds.isEmpty || !rest.isEmpty then none
      else some (if negative then -(digitsValue ds : Int) else digitsValue ds)
    else none

/-- The digits behind a point in front, if there is one, and what follows them. -/
def splitFraction : List Char → List Char × List Char
  | '.' :: rest => splitDigits rest
  | rest => ([], rest)

/-- A decimal number without a sign: digits with an optional point and an optional exponent. -/
def scientific? (cs : List Char) : Option Scientific :=
  let (whole, rest) := splitDigits cs
  let (fraction, rest) := splitFraction rest
  if whole.isEmpty && fraction.isEmpty then none
  else (exponent? rest).map fun e => ⟨digitsValue (whole ++ fraction), e - fraction.length⟩

/-- The bits of a number without a sign, which may be given by name. -/
def magnitude? (cs : List Char) : Option Nat :=
  let name := String.ofList (cs.map Char.toLower)
  if name = "inf" || name = "infinity" then some infinityBits
  else if name = "nan" then some (infinityBits + Nat.pow 2 51)
  else (scientific? cs).map Scientific.bits

/-- The blanks that may stand around a number, which the four ASCII separators are not. -/
def isPadding (c : Char) : Bool := isBlank c && !(28 ≤ c.toNat && c.toNat ≤ 31)

/-- The characters of a number: blanks around it and underscores inside it are dropped. -/
def numberChars (s : String) : Option (List Char) :=
  dropUnderscores ' ' (asciiDigits (trimWhere isPadding s.toList))

/-- The double that a text stands for. -/
def real? (s : String) : Option Float := do
  let cs ← numberChars s
  let (negative, cs) := splitSign cs
  let bits ← magnitude? cs
  pure (signed negative bits)

def integer? (s : String) : Option Int := do
  let cs ← numberChars s
  let (negative, cs) := splitSign cs
  let (ds, rest) := splitDigits cs
  if ds.isEmpty || !rest.isEmpty then none
  else pure (if negative then -(digitsValue ds : Int) else digitsValue ds)

end QasmCircuit.Decimal
