import QasmCircuit.Proofs.Decimal.Double

/-!
# Products with one and minus one

A product of doubles is rounded, but where one factor is one or minus one there is nothing to round: the
mantissa of the product is that of the other factor with empty places behind it, and they are shifted out
again. Such a product keeps the other factor up to its sign, and stays finite.
-/

namespace QasmCircuit.Decimal

open Float.Model Float.Model.UnpackedFloat

variable {bits : Nat} {a : Bool} {x : Float}

/-- The bits of one. -/
def oneBits : Nat := 1023 * Nat.pow 2 52

/-- Empty places are shifted out without a trace. -/
theorem shiftRight_mul_pow (n m : Nat) : (⟨m * 2 ^ n, false, false⟩ : ExtendedMantissa) >>> n = ⟨m, false, false⟩ := by
  show n.repeat ExtendedMantissa.shiftRightOne _ = _
  induction n generalizing m with
  | zero => rw [Nat.pow_zero, Nat.mul_one]; rfl
  | succ n ih =>
    have hmul : m * 2 ^ (n + 1) = m * 2 * 2 ^ n := by rw [Nat.pow_succ, Nat.mul_comm (2 ^ n) 2, Nat.mul_assoc]
    rw [Nat.repeat, hmul, ih, ExtendedMantissa.shiftRightOne, Nat.mul_div_cancel m Nat.zero_lt_two, Nat.mul_mod_left]
    rfl

/-- The mantissa of a double stands at the exponent that its size asks for. -/
theorem targetExponent_ofBits (hpos : 0 < bits) : Format.binary64.targetExponent
      (totalExponent (Binary.ofBits bits).mantissa (Binary.ofBits bits).exponent) = (Binary.ofBits bits).exponent := by
  obtain ⟨hpow, hpow', -⟩ := pow_places
  have hmin : Format.binary64.minExponent = -1074 := rfl
  have hplaces : Format.binary64.mantissaBits = 53 := rfl
  rw [Format.targetExponent, totalExponent, hmin, hplaces]
  by_cases hsmall : bits / 2 ^ 52 = 0
  · rw [Binary.ofBits_of_small hsmall]
    have hlog : (bits % 2 ^ 52).log2 < 52 := (Nat.log2_lt (by omega)).mpr (by omega)
    dsimp only
    omega
  · rw [Binary.ofBits_of_large hsmall]
    have hlog : (2 ^ 52 + bits % 2 ^ 52).log2 = 52 := by
      rw [Nat.log2_eq_iff (by omega)]
      omega
    dsimp only
    rw [hlog]
    omega

theorem shiftToTargetExponent_ofBits (hpos : 0 < bits) :
    shiftToTargetExponent Format.binary64 (Binary.ofBits bits).mantissa (Binary.ofBits bits).exponent .exact =
      (⟨(Binary.ofBits bits).mantissa, false, false⟩, (Binary.ofBits bits).exponent) := by
  rw [shiftToTargetExponent, targetExponent_ofBits hpos, shiftToExponent, Int.sub_self]
  exact Prod.ext rfl (Int.add_zero _)

theorem log2_mul_two_pow {m : Nat} (hm : m ≠ 0) (n : Nat) : (m * 2 ^ n).log2 = m.log2 + n := by
  induction n with
  | zero => rw [Nat.pow_zero, Nat.mul_one, Nat.add_zero]
  | succ n ih =>
    have hmul : m * 2 ^ (n + 1) = 2 * (m * 2 ^ n) := by rw [Nat.pow_succ, ← Nat.mul_assoc, Nat.mul_comm]
    have hne : m * 2 ^ n ≠ 0 := Nat.mul_ne_zero hm (Nat.two_pow_pos n).ne'
    rw [hmul, Nat.log2_two_mul hne, ih, Nat.add_assoc]

theorem shiftToTargetExponent_places (hpos : 0 < bits) :
    shiftToTargetExponent Format.binary64 ((Binary.ofBits bits).mantissa * 2 ^ 52)
      ((Binary.ofBits bits).exponent - 52) .exact =
      (⟨(Binary.ofBits bits).mantissa, false, false⟩, (Binary.ofBits bits).exponent) := by
  have hmantissa := (Binary.represents_ofBits hpos).pos
  have htotal : totalExponent ((Binary.ofBits bits).mantissa * 2 ^ 52) ((Binary.ofBits bits).exponent - 52) =
      totalExponent (Binary.ofBits bits).mantissa (Binary.ofBits bits).exponent := by
    rw [totalExponent, totalExponent, log2_mul_two_pow hmantissa.ne']
    omega
  have hshift : ((Binary.ofBits bits).exponent - ((Binary.ofBits bits).exponent - 52)).toNat = 52 := by omega
  rw [shiftToTargetExponent, htotal, targetExponent_ofBits hpos, shiftToExponent, hshift]
  refine Prod.ext (shiftRight_mul_pow 52 _) ?_
  show (Binary.ofBits bits).exponent - 52 + (52 : Nat) = _
  omega

/-- Nothing is rounded where only empty places are dropped. -/
theorem roundWithAccuracy_places (hpos : 0 < bits) (s : Sign) :
    roundWithAccuracy Format.binary64 s ((Binary.ofBits bits).mantissa * 2 ^ 52)
      ((Binary.ofBits bits).exponent - 52) .exact =
      .finite s (Binary.ofBits bits).mantissa (Binary.ofBits bits).exponent (Binary.represents_ofBits hpos).pos := by
  have hmantissa := (Binary.represents_ofBits hpos).pos
  have hrounded : (⟨(Binary.ofBits bits).mantissa, false, false⟩ : ExtendedMantissa).roundedMantissa =
      (Binary.ofBits bits).mantissa := rfl
  rw [roundWithAccuracy, shiftToTargetExponent_places hpos]
  dsimp only
  rw [hrounded, shiftToTargetExponent_ofBits hpos]
  exact dif_neg hmantissa.ne'

theorem ofBits_oneBits : Binary.ofBits oneBits = ⟨2 ^ 52, -52⟩ := by decide

theorem signOf_mul (a b : Bool) : signOf a * signOf b = signOf (a != b) := by
  cases a <;> cases b <;> rfl

/-- A unit times a finite double is the double with the product of the signs. -/
theorem unit_mul_signed {b : Bool} (h : bits < infinityBits) :
    signed a oneBits * signed b bits = signed (a != b) bits := by
  have hone : oneBits < infinityBits := by decide
  have hunpack : ∀ {n : Bool} {k : Nat}, k ≤ infinityBits → (signed n k).toModel.unpack =
      UnpackedFloat.unpack Format.binary64 (word n k) := fun hk =>
    congrArg (UnpackedFloat.unpack Format.binary64) (congrArg UInt64.toBitVec (toBits_signed hk))
  apply eq_of_toBits_eq
  rw [toBits_signed h.le]
  show UInt64.ofBitVec (UnpackedFloat.pack Format.binary64 (UnpackedFloat.mul Format.binary64
    (signed a oneBits).toModel.unpack (signed b bits).toModel.unpack)) = _
  rw [hunpack hone.le, hunpack h.le, unpack_word (by decide) hone]
  rcases Nat.eq_zero_or_pos bits with rfl | hpos
  · cases a <;> cases b <;> rfl
  · rw [unpack_word hpos h]
    show UInt64.ofBitVec (UnpackedFloat.pack Format.binary64 (roundWithAccuracy Format.binary64
      (signOf a * signOf b) ((Binary.ofBits oneBits).mantissa * (Binary.ofBits bits).mantissa)
      ((Binary.ofBits oneBits).exponent + (Binary.ofBits bits).exponent) .exact)) = _
    have hmantissa : (Binary.ofBits oneBits).mantissa * (Binary.ofBits bits).mantissa =
        (Binary.ofBits bits).mantissa * 2 ^ 52 := by
      rw [ofBits_oneBits, Nat.mul_comm]
    have hexponent : (Binary.ofBits oneBits).exponent + (Binary.ofBits bits).exponent =
        (Binary.ofBits bits).exponent - 52 := by
      rw [ofBits_oneBits]
      dsimp only
      omega
    rw [hmantissa, hexponent, signOf_mul, roundWithAccuracy_places hpos, pack_ofBits hpos h]

theorem isFinite_signed {negative : Bool} (h : bits < infinityBits) : (signed negative bits).isFinite := by
  rw [isFinite_iff, magnitudeBits_signed h.le]
  exact h

theorem isFinite_unit_mul (hx : x.isFinite) : (signed a oneBits * x).isFinite := by
  have hbits := (isFinite_iff x).mp hx
  rw [eq_signed hbits.le, unit_mul_signed hbits]
  exact isFinite_signed hbits

/-- An integer that is not too large for a double has a finite one. -/
theorem isFinite_of_ofInt? {n : Int} (h : ofInt? n = some x) : x.isFinite := by
  unfold ofInt? at h
  dsimp only at h
  split at h
  · cases h
  · next hne =>
    cases h
    exact isFinite_signed (lt_of_le_of_ne (nearestBits_le _ _) hne)

theorem one_mul (hx : x.isFinite) : signed false oneBits * x = x := by
  have hbits := (isFinite_iff x).mp hx
  rw [eq_signed hbits.le, unit_mul_signed hbits]
  cases isNegative x <;> rfl

/-- Two units in a row are one unit. -/
theorem unit_mul_unit {b : Bool} (hx : x.isFinite) :
    signed a oneBits * (signed b oneBits * x) = signed (a != b) oneBits * x := by
  have hbits := (isFinite_iff x).mp hx
  rw [eq_signed hbits.le, unit_mul_signed hbits, unit_mul_signed hbits, unit_mul_signed hbits, Bool.bne_assoc]

theorem ofInt?_unit {n : Int} (h : n = 1 ∨ n = -1) : ofInt? n = some (signed (n < 0) oneBits) := by
  rcases h with rfl | rfl <;> rfl

end QasmCircuit.Decimal
