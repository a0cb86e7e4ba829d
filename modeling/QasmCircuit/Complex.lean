import QasmCircuit.Decimal.Multiple

/-!
# Complex numbers

Complex numbers with double parts. A product is formed part by part, so that an infinite or undefined part
spreads to the other one.
-/

namespace QasmCircuit

/-- A complex number. -/
structure Complex where
  re : Float
  im : Float := 0.0
deriving Repr

namespace Complex

instance : Zero Complex := ⟨⟨0.0, 0.0⟩⟩
instance : One Complex := ⟨⟨1.0, 0.0⟩⟩
instance : Add Complex := ⟨fun a b => ⟨a.re + b.re, a.im + b.im⟩⟩
instance : Sub Complex := ⟨fun a b => ⟨a.re - b.re, a.im - b.im⟩⟩
instance : Mul Complex := ⟨fun a b => ⟨a.re * b.re - a.im * b.im, a.re * b.im + a.im * b.re⟩⟩
instance : Neg Complex := ⟨fun a => ⟨-a.re, -a.im⟩⟩

/-- The complex conjugate. -/
def conj (a : Complex) : Complex := ⟨a.re, -a.im⟩

def isFinite (a : Complex) : Bool := a.re.isFinite && a.im.isFinite

/-- Whether both parts are zero, of any sign. -/
def isZero (a : Complex) : Bool := a.re == 0.0 && a.im == 0.0

/-- The distance from zero, scaled so that no square is too large or too small. It is infinite if a part
is, and otherwise undefined if a part is. -/
def abs (a : Complex) : Float :=
  let x := a.re.abs
  let y := a.im.abs
  let big := if x < y then y else x
  let ratio := (if x < y then x else y) / big
  if x.isInf || y.isInf then 1.0 / 0.0
  else if x.isNaN || y.isNaN then 0.0 / 0.0
  else if big == 0.0 then 0.0
  else if ratio == 0.0 then big
  else big * (Decimal.fused ratio ratio 1.0).sqrt

/-- The exponential of a multiple of the imaginary unit, undefined for an infinite one. -/
def turn (factor angle : Float) : Complex :=
  let x := factor * angle
  if x.isInf then ⟨0.0 / 0.0, 0.0 / 0.0⟩ else ⟨x.cos, x.sin⟩

end Complex

end QasmCircuit
