import QasmCircuit.Decimal.Nearest

/-!
# The fewest digits that read back

A finite double is written with the fewest significant digits that read back as the same double, and of
those with the ones nearest to it. Numbers from `10 ^ -4` up to below `10 ^ 16` are written positionally,
all others with an exponent of at least two digits and a sign.
-/

namespace QasmCircuit.Decimal

/-- The exact value of a finite double as a decimal number. -/
def Binary.exact (x : Binary) : Scientific :=
  if x.exponent < 0 then ⟨x.mantissa * Nat.pow 5 (-x.exponent).toNat, x.exponent⟩
  else ⟨x.mantissa * Nat.pow 2 x.exponent.toNat, 0⟩

def Binary.num (x : Binary) : Nat := x.mantissa * Nat.pow 2 x.exponent.toNat

def Binary.den (x : Binary) : Nat := Nat.pow 2 (-x.exponent).toNat

/-- Whether a double is below `10 ^ k`. -/
def Binary.below (x : Binary) (k : Int) : Bool :=
  x.num * Nat.pow 10 (-k).toNat < x.den * Nat.pow 10 k.toNat

/-- The least `k` such that the double is below `10 ^ k`. -/
def Binary.scale (x : Binary) : Int :=
  let k := (((x.mantissa.log2 : Int) + x.exponent) * 30103) / 100000
  if x.below k then k else if x.below (k + 1) then k + 1 else k + 2

/-- The candidate with `n` digits: of the two multiples of the last place around the double those that
read back as `bits`, and of two of them the nearer one, a half going to the even one. -/
def Binary.candidate? (x : Binary) (bits n : Nat) : Option Scientific :=
  let place := x.scale - n
  let num := x.num * Nat.pow 10 (-place).toNat
  let den := x.den * Nat.pow 10 place.toNat
  let lower : Scientific := ⟨num / den, place⟩
  let upper : Scientific := ⟨num / den + 1, place⟩
  let near : Scientific := ⟨roundQuotient num den, place⟩
  [near, lower, upper].find? fun d => d.bits = bits

/-- Moves the zeros at the end of the digits into the exponent. -/
def Scientific.strip : Nat → Scientific → Scientific
  | 0, d => d
  | fuel + 1, d =>
    if d.digits % 10 = 0 && d.digits ≠ 0 then Scientific.strip fuel ⟨d.digits / 10, d.exponent + 1⟩ else d

/-- The fewest digits that read back as the finite double with these bits. -/
def shortest (bits : Nat) : Scientific :=
  let x := Binary.ofBits bits
  let found := ((List.range 17).findSome? fun n => x.candidate? bits (n + 1)).getD x.exact
  let stripped := found.strip 18
  if stripped.bits = bits then stripped else found

def digitChars (n : Nat) : List Char := Nat.toDigits 10 n

/-- Digits with a point after the first `point` of them, filled with zeros on either side. -/
def positional (ds : List Char) (point : Int) : List Char :=
  if point ≤ 0 then '0' :: '.' :: List.replicate (-point).toNat '0' ++ ds
  else if ds.length ≤ point.toNat then ds ++ List.replicate (point.toNat - ds.length) '0' ++ ['.', '0']
  else ds.take point.toNat ++ '.' :: ds.drop point.toNat

/-- An exponent with its sign and at least two digits. -/
def exponentChars (e : Int) : List Char :=
  let ds := digitChars e.natAbs
  'e' :: (if e < 0 then '-' else '+') :: (if ds.length < 2 then '0' :: ds else ds)

/-- Digits with a point after the first one, unless it is the only one, and an exponent. -/
def exponential (ds : List Char) (e : Int) : List Char :=
  match ds with
  | [] => []
  | [d] => d :: exponentChars e
  | d :: rest => d :: '.' :: rest ++ exponentChars e

/-- The text of a positive decimal number. -/
def Scientific.chars (d : Scientific) : List Char :=
  let ds := digitChars d.digits
  let point := d.exponent + ds.length
  if -4 < point && point ≤ 16 then positional ds point else exponential ds (point - 1)

/-- The text of a double without its sign. -/
def magnitudeChars (bits : Nat) : List Char :=
  if bits = 0 then "0.0".toList
  else if infinityBits < bits then "nan".toList
  else if bits = infinityBits then "inf".toList
  else (shortest bits).chars

/-- The text of a double: the fewest digits that read back. -/
def text (x : Float) : String :=
  let bits := magnitudeBits x
  let cs := magnitudeChars bits
  String.ofList (if isNegative x && bits ≤ infinityBits then '-' :: cs else cs)

end QasmCircuit.Decimal
