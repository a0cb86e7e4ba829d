import QasmCircuit.Decimal.Shortest

/-!
# A fixed number of places

Entries of matrices are written with nine places. The value is rounded exactly, a half going to the even
neighbour, and a negative number that rounds to zero has no sign.
-/

namespace QasmCircuit.Decimal

/-- Digits of a number, filled with zeros in front up to a width. -/
def padded (width n : Nat) : List Char :=
  let ds := digitChars n
  List.replicate (width - ds.length) '0' ++ ds

/-- The number of units of the last of `places` places in a double without its sign. -/
def units (places bits : Nat) : Nat :=
  let x := Binary.ofBits bits
  roundQuotient (x.num * Nat.pow 10 places) x.den

end QasmCircuit.Decimal
