import QasmCircuit.Expr

/-!
# Arithmetic of expressions

Sums, differences and products of doubles always have a value. Quotients, powers and functions have none
where their value is undefined, not real, or too large although the operands are finite.
-/

namespace QasmCircuit.Arithmetic

/-- The ratio of the circumference of a circle to its diameter. -/
def pi : Float := 3.141592653589793

/-- Why an operation has no value. -/
inductive Failure where
  | divisionByZero
  | overflow
  | notReal
deriving Repr, DecidableEq

/-- Whether a finite double has no fraction. -/
def isIntegral (x : Float) : Bool := (Decimal.Binary.ofBits (Decimal.magnitudeBits x)).isIntegral

/-- Whether a finite double is an odd integer. -/
def isOdd (x : Float) : Bool := (Decimal.Binary.ofBits (Decimal.magnitudeBits x)).isOdd

def copySign (x y : Float) : Float :=
  if Decimal.isNegative y then -x.abs else x.abs

/-- A quotient, which a zero has none of. -/
def divide (x y : Float) : Except Failure Float :=
  if y == 0.0 then .error .divisionByZero else .ok (x / y)

/-- A power of finite operands that are neither zero nor one in size. -/
def finitePower (x y : Float) : Except Failure Float :=
  let size := Float.pow x.abs y
  if size.isInf then .error .overflow
  else if x < 0.0 && isOdd y then .ok (-size)
  else .ok size

/-- A power. A negative base needs an integral exponent, and zero a non-negative one. -/
def power (x y : Float) : Except Failure Float :=
  if y == 0.0 then .ok 1.0
  else if x.isNaN then .ok x
  else if y.isNaN then .ok (if x == 1.0 then 1.0 else y)
  else if y.isInf then
    if x.abs == 1.0 then .ok 1.0
    else if (y > 0.0) == (x.abs > 1.0) then .ok y.abs
    else .ok 0.0
  else if x.isInf then
    if y > 0.0 then .ok (if isOdd y then x else x.abs)
    else .ok (if isOdd y then copySign 0.0 x else 0.0)
  else if x == 0.0 then
    if y < 0.0 then .error .divisionByZero
    else .ok (if isOdd y then x else 0.0)
  else if x < 0.0 && !isIntegral y then
    if (Float.pow x.abs y).isInf then .error .overflow else .error .notReal
  else if x.abs == 1.0 then .ok (if x < 0.0 && isOdd y then -1.0 else 1.0)
  else finitePower x y

def binary : Operator → Float → Float → Except Failure Float
  | .add, x, y => .ok (x + y)
  | .sub, x, y => .ok (x - y)
  | .mul, x, y => .ok (x * y)
  | .div, x, y => divide x y
  | .pow, x, y => power x y

/-- The value of a function, where it has one. -/
def functionAt? (f : Function) (x : Float) : Option Float :=
  match f with
  | .sin => if x.isInf then none else some x.sin
  | .cos => if x.isInf then none else some x.cos
  | .tan => if x.isInf then none else some x.tan
  | .exp => if x.isFinite && x.exp.isInf then none else some x.exp
  | .ln => if x <= 0.0 then none else some x.log
  | .sqrt => if x < 0.0 then none else some x.sqrt

end QasmCircuit.Arithmetic
