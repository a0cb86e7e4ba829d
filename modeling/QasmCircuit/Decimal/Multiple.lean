import QasmCircuit.Decimal.Nearest

/-!
# Exact multiples of powers of two

A finite double is an integer multiple of a power of two, so products and sums of doubles are such multiples
too, and two of them are compared without rounding. `fused x y z` is the double nearest to `x * y + z`, where
the product is not rounded by itself.
-/

namespace QasmCircuit.Decimal

/-- The number `units * 2 ^ exponent`. -/
structure Multiple where
  units : Int
  exponent : Int
deriving Repr, DecidableEq

namespace Multiple

/-- The value of a finite double. -/
def ofReal (x : Float) : Multiple :=
  let b := Binary.ofBits (magnitudeBits x)
  ⟨if isNegative x then -(b.mantissa : Int) else b.mantissa, b.exponent⟩

def ofInt (n : Int) : Multiple := ⟨n, 0⟩

/-- The units of a number over an exponent that is at most its own. -/
def unitsOver (a : Multiple) (exponent : Int) : Int :=
  a.units * (Nat.pow 2 (a.exponent - exponent).toNat : Nat)

/-- The product of two numbers. -/
def mul (a b : Multiple) : Multiple := ⟨a.units * b.units, a.exponent + b.exponent⟩

/-- The sum of two numbers. -/
def add (a b : Multiple) : Multiple :=
  let e := min a.exponent b.exponent
  ⟨a.unitsOver e + b.unitsOver e, e⟩

/-- Whether a number is at most another one. -/
def atMost (a b : Multiple) : Bool :=
  let e := min a.exponent b.exponent
  a.unitsOver e ≤ b.unitsOver e

def nearest (a : Multiple) : Float :=
  Decimal.nearest (a.units < 0) (scaledNum a.units.natAbs (-a.exponent)) (scaledDen 1 (-a.exponent))

end Multiple

/-- The double nearest to `x * y + z`. -/
def fused (x y z : Float) : Float :=
  if !(x.isFinite && y.isFinite) then x * y + z
  else if !z.isFinite then z
  else
    let sum := ((Multiple.ofReal x).mul (.ofReal y)).add (.ofReal z)
    if sum.units = 0 then x * y + z else sum.nearest

end QasmCircuit.Decimal
