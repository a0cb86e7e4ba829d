/-!
# The double nearest to a quotient

Every number that enters the program as decimal text, as an integer or as a quotient of integers becomes
the double nearest to it, a half going to the even neighbour. The rounding is done in exact integer
arithmetic on `num / den`.

> `roundQuotient_exact`: a quotient without remainder is kept.
> `nearestBits_le`: no quotient goes beyond infinity.
-/

namespace QasmCircuit.Decimal

/-- Rounds `num / den` to the nearest integer, a half to the even one. -/
def roundQuotient (num den : Nat) : Nat :=
  let q := num / den
  let twice := 2 * (num % den)
  if twice < den then q else if den < twice then q + 1 else q + q % 2

theorem roundQuotient_exact (q den : Nat) (h : 0 < den) : roundQuotient (q * den) den = q := by
  simp [roundQuotient, Nat.mul_div_cancel _ h, h]

/-- The numerator of `num / (den * 2 ^ p)`. -/
def scaledNum (num : Nat) (p : Int) : Nat := num * Nat.pow 2 (-p).toNat

/-- The denominator of `num / (den * 2 ^ p)`. -/
def scaledDen (den : Nat) (p : Int) : Nat := den * Nat.pow 2 p.toNat

/-- The exponent of the greatest power of two that is at most `num / den`. -/
def floorLog (num den : Nat) : Int :=
  let e : Int := (num.log2 : Int) - den.log2
  if scaledDen den e ≤ scaledNum num e then e else e - 1

/-- The exponent of the last binary place of a double of the size of `num / den`. -/
def lastPlace (num den : Nat) : Int :=
  max (floorLog num den - 52) (-1074)

/-- The bits of positive infinity. -/
def infinityBits : Nat := 0x7FF0000000000000

/-- The bits of the double nearest to `num / den`, which is infinite beyond the largest finite one. -/
def nearestBits (num den : Nat) : Nat :=
  if num = 0 then 0
  else
    let p := lastPlace num den
    let units := roundQuotient (scaledNum num p) (scaledDen den p)
    min (units + (p + 1074).toNat * Nat.pow 2 52) infinityBits

theorem nearestBits_le (num den : Nat) : nearestBits num den ≤ infinityBits := by
  simp only [nearestBits]
  split
  · exact Nat.zero_le _
  · exact Nat.min_le_right _ _

/-- The double with the given sign and the bits of a non-negative double. -/
def signed (negative : Bool) (bits : Nat) : Float :=
  Float.ofBits (UInt64.ofNat (if negative then bits + Nat.pow 2 63 else bits))

/-- The double nearest to `num / den`, with a sign. -/
def nearest (negative : Bool) (num den : Nat) : Float :=
  signed negative (nearestBits num den)

/-- A decimal number `digits * 10 ^ exponent`. -/
structure Scientific where
  digits : Nat
  exponent : Int
deriving Repr, DecidableEq

/-- The bits of the double nearest to a decimal number. Exponents far outside the range of doubles are
settled without building the power of ten. -/
def Scientific.bits (d : Scientific) : Nat :=
  if d.digits = 0 then 0
  else if 400 < d.exponent then infinityBits
  else if d.exponent + ((d.digits.log2 / 3 : Nat) : Int) < -401 then 0
  else nearestBits (d.digits * Nat.pow 10 d.exponent.toNat) (Nat.pow 10 (-d.exponent).toNat)

/-- The double nearest to an integer, unless the integer is too large for one. -/
def ofInt? (n : Int) : Option Float :=
  let bits := nearestBits n.natAbs 1
  if bits = infinityBits then none else some (signed (n < 0) bits)

/-- The double nearest to a quotient of integers, unless it is too large for one. -/
def ofQuotient? (a b : Int) : Option Float :=
  let bits := nearestBits a.natAbs b.natAbs
  if bits = infinityBits then none else some (signed ((a < 0) != (b < 0)) bits)

/-- A finite non-negative double as `mantissa * 2 ^ exponent`. -/
structure Binary where
  mantissa : Nat
  exponent : Int
deriving Repr, DecidableEq

/-- Splits the bits of a finite non-negative double. -/
def Binary.ofBits (bits : Nat) : Binary :=
  let e : Nat := bits / Nat.pow 2 52
  let f : Nat := bits % Nat.pow 2 52
  if e = 0 then ⟨f, -1074⟩ else ⟨Nat.pow 2 52 + f, (e : Int) - 1075⟩

def Binary.isIntegral (x : Binary) : Bool := x.mantissa % Nat.pow 2 (-x.exponent).toNat = 0

def Binary.isOdd (x : Binary) : Bool :=
  x.isIntegral && x.exponent ≤ 0 && x.mantissa / Nat.pow 2 (-x.exponent).toNat % 2 = 1

/-- The bits of a double without its sign. -/
def magnitudeBits (x : Float) : Nat := x.toBits.toNat % Nat.pow 2 63

/-- Whether the sign of a double is negative, which holds of the negative zero too. -/
def isNegative (x : Float) : Bool := Nat.pow 2 63 ≤ x.toBits.toNat

def toInt? (x : Float) : Option Int :=
  let bits := magnitudeBits x
  let b := Binary.ofBits bits
  if infinityBits ≤ bits || !b.isIntegral then none
  else
    let n := b.mantissa * Nat.pow 2 b.exponent.toNat / Nat.pow 2 (-b.exponent).toNat
    some (if isNegative x then -(n : Int) else n)

end QasmCircuit.Decimal
