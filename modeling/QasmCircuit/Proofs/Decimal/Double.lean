import QasmCircuit.Proofs.Decimal.Nearest

/-!
# Doubles and their bits

A double is a word of 64 bits: a sign and, below it, the bits of a non-negative double. Up to infinity every
such word is a double of its own (`eq_signed`), the sign can be turned without touching the rest
(`neg_signed`), and the tests for finite numbers and for zero look at the bits below the sign only.
-/

namespace QasmCircuit.Decimal

open Float.Model Float.Model.UnpackedFloat

/-! ## The parts of a word -/

def signOf (negative : Bool) : Sign := if negative then .negative else .positive

/-- The word with the given sign and the bits of a non-negative double. -/
def word (negative : Bool) (bits : Nat) : BitVec Format.binary64.numBits :=
  BitVec.ofNat 64 (if negative then bits + Nat.pow 2 63 else bits)

/-- Two to the places of the mantissa, of the exponent and of both. -/
theorem pow_places : Nat.pow 2 52 = 4503599627370496 ∧ 2 ^ 52 = 4503599627370496 ∧
    Nat.pow 2 63 = 9223372036854775808 ∧ 2 ^ 63 = 9223372036854775808 ∧
    infinityBits = 9218868437227405312 := ⟨rfl, rfl, rfl, rfl, rfl⟩

theorem toNat_word {negative : Bool} {bits : Nat} (h : bits < 2 ^ 63) :
    (word negative bits).toNat = (signOf negative).toBitVec.toNat * 2 ^ 63 + bits := by
  obtain ⟨-, -, hpow, hpow', -⟩ := pow_places
  have hplain : Sign.positive.toBitVec.toNat = 0 := rfl
  have hminus : Sign.negative.toBitVec.toNat = 1 := rfl
  have hword : (word negative bits).toNat = (if negative then bits + Nat.pow 2 63 else bits) % 2 ^ 64 :=
    BitVec.toNat_ofNat _ 64
  rw [hword, signOf]
  cases negative with
  | false =>
    rw [if_neg Bool.false_ne_true, if_neg Bool.false_ne_true, hplain]
    omega
  | true =>
    rw [if_pos rfl, if_pos rfl, hminus, hpow]
    omega

section

variable (b : BitVec Format.binary64.numBits)

include b

theorem toNat_unpackMantissa : (unpackMantissa b).toNat = b.toNat % 2 ^ 52 := by
  simp [unpackMantissa]

theorem toNat_unpackExponent : (unpackExponent b).toNat = b.toNat / 2 ^ 52 % 2 ^ 11 := by
  simp [unpackExponent, Nat.shiftRight_eq_div_pow]

theorem toNat_unpackSign : (unpackSign b).toNat = b.toNat / 2 ^ 63 % 2 := by
  unfold unpackSign
  simp [Nat.shiftRight_eq_div_pow]

end

theorem toNat_packComponents (s : Sign) (e : BitVec Format.binary64.exponentBits)
    (m : BitVec Format.binary64.mantissaBitsWithoutImplicit) : (packComponents Format.binary64 s e m).toNat =
      s.toBitVec.toNat * 2 ^ 63 + e.toNat * 2 ^ 52 + m.toNat := by
  have he : e.toNat < 2 ^ 11 := e.isLt
  have hm : m.toNat < 2 ^ 52 := m.isLt
  rw [packComponents, BitVec.toNat_append, BitVec.toNat_append, ← Nat.shiftLeft_add_eq_or_of_lt he,
    ← Nat.shiftLeft_add_eq_or_of_lt hm, Nat.shiftLeft_eq, Nat.shiftLeft_eq]
  show (_ * 2 ^ 11 + _) * 2 ^ 52 + _ = _
  omega

section

variable {negative : Bool} {bits : Nat}

theorem unpackSign_word (h : bits < 2 ^ 63) : Sign.ofBitVec (unpackSign (word negative bits)) = signOf negative := by
  have hsign : (unpackSign (word negative bits)).toNat = (signOf negative).toBitVec.toNat := by
    rw [toNat_unpackSign, toNat_word h]
    have hbit : (signOf negative).toBitVec.toNat < 2 := (signOf negative).toBitVec.isLt
    omega
  rw [BitVec.eq_of_toNat_eq hsign]
  cases negative <;> rfl

theorem toNat_unpackMantissa_word (h : bits < 2 ^ 63) :
    (unpackMantissa (word negative bits)).toNat = bits % 2 ^ 52 := by
  rw [toNat_unpackMantissa, toNat_word h]
  omega

theorem toNat_unpackExponent_word (h : bits < 2 ^ 63) :
    (unpackExponent (word negative bits)).toNat = bits / 2 ^ 52 := by
  rw [toNat_unpackExponent, toNat_word h]
  omega

theorem finite_congr {s : Sign} {m n : Nat} {e f : Int} (hm : 0 < m) (hn : 0 < n) (hmn : m = n) (hef : e = f) :
    UnpackedFloat.finite s m e hm = .finite s n f hn := by
  subst hmn hef
  rfl

theorem Binary.ofBits_of_small (h : bits / 2 ^ 52 = 0) : Binary.ofBits bits = ⟨bits % 2 ^ 52, -1074⟩ :=
  if_pos h

theorem Binary.ofBits_of_large (h : ¬ bits / 2 ^ 52 = 0) :
    Binary.ofBits bits = ⟨2 ^ 52 + bits % 2 ^ 52, ((bits / 2 ^ 52 : Nat) : Int) - 1075⟩ :=
  if_neg h

/-- The word of a finite double other than zero stands for its mantissa and its exponent. -/
theorem unpack_word (hpos : 0 < bits) (hfinite : bits < infinityBits) :
    UnpackedFloat.unpack Format.binary64 (word negative bits) =
      .finite (signOf negative) (Binary.ofBits bits).mantissa (Binary.ofBits bits).exponent
        (Binary.represents_ofBits hpos).pos := by
  obtain ⟨hpow, hpow', -, hpow'', hinfinity⟩ := pow_places
  have hlt : bits < 2 ^ 63 := by omega
  have hexponent : (unpackExponent (word negative bits)).toNat = bits / 2 ^ 52 := toNat_unpackExponent_word hlt
  have hmantissa : (unpackMantissa (word negative bits)).toNat = bits % 2 ^ 52 := toNat_unpackMantissa_word hlt
  have hfull : unpackExponent (word negative bits) ≠ -1#_ := by
    intro h
    have hones : (-1#_ : BitVec Format.binary64.exponentBits).toNat = 2047 := rfl
    rw [h, hones] at hexponent
    omega
  have hbias : ((Format.binary64.exponentBias : Int) + (52 : Nat)) = 1075 := rfl
  unfold UnpackedFloat.unpack
  dsimp only
  rw [if_neg hfull, unpackSign_word hlt]
  by_cases hsmall : bits / 2 ^ 52 = 0
  · -- A subnormal double: there is no implicit bit.
    have hempty : unpackExponent (word negative bits) = 0#_ :=
      BitVec.eq_of_toNat_eq (hexponent.trans hsmall)
    have hsome : unpackMantissa (word negative bits) ≠ 0#_ := by
      intro h
      have hzero : (0#_ : BitVec Format.binary64.mantissaBitsWithoutImplicit).toNat = 0 := rfl
      rw [h, hzero] at hmantissa
      omega
    rw [if_pos hempty, dif_neg hsome]
    apply finite_congr
    · rw [hmantissa, Binary.ofBits_of_small hsmall]
    · rw [hexponent, hsmall, hbias, Binary.ofBits_of_small hsmall]
      rfl
  · have hsome : unpackExponent (word negative bits) ≠ 0#_ := by
      intro h
      have hzero : (0#_ : BitVec Format.binary64.exponentBits).toNat = 0 := rfl
      rw [h, hzero] at hexponent
      omega
    rw [if_neg hsome]
    apply finite_congr
    · have hbit : (unpackMantissa (word negative bits)).toNat < 2 ^ 52 := BitVec.isLt _
      rw [BitVec.toNat_append, ← Nat.shiftLeft_add_eq_or_of_lt hbit, hmantissa,
        Binary.ofBits_of_large hsmall, Nat.shiftLeft_eq, BitVec.toNat_one (by decide), Nat.one_mul]
    · rw [hexponent, hbias, Binary.ofBits_of_large hsmall]

/-- The mantissa and the exponent of a finite double are packed into its bits. -/
theorem pack_ofBits (hpos : 0 < bits) (hfinite : bits < infinityBits) (h : 0 < (Binary.ofBits bits).mantissa) :
    UnpackedFloat.pack Format.binary64
      (.finite (signOf negative) (Binary.ofBits bits).mantissa (Binary.ofBits bits).exponent h) =
    word negative bits := by
  obtain ⟨hpow, hpow', -, hpow'', hinfinity⟩ := pow_places
  have hlt : bits < 2 ^ 63 := by omega
  have hbias : Format.binary64.exponentBias = 1023 := rfl
  have hplaces : Format.binary64.mantissaBits = 53 := rfl
  apply BitVec.eq_of_toNat_eq
  rw [toNat_word hlt]
  unfold UnpackedFloat.pack
  dsimp only
  rw [hbias, hplaces]
  by_cases hsmall : bits / 2 ^ 52 = 0
  · have hmantissa : (Binary.ofBits bits).mantissa = bits := by
      rw [Binary.ofBits_of_small hsmall]
      exact Nat.mod_eq_of_lt (by omega)
    have hexponent : (Binary.ofBits bits).exponent = -1074 := by rw [Binary.ofBits_of_small hsmall]
    have hlog : bits.log2 < 52 := (Nat.log2_lt (by omega)).mpr (by omega)
    rw [hexponent, if_neg (by decide), hmantissa, if_neg (by omega), toNat_packComponents, BitVec.toNat_ofNat,
      BitVec.toNat_ofNat]
    simp only
    omega
  · have hmantissa : (Binary.ofBits bits).mantissa = 2 ^ 52 + bits % 2 ^ 52 := by
      rw [Binary.ofBits_of_large hsmall]
    have hexponent : ((Binary.ofBits bits).exponent + (1023 : Nat) + (52 : Nat)).toNat = bits / 2 ^ 52 := by
      rw [Binary.ofBits_of_large hsmall]
      dsimp only
      omega
    have hlog : (2 ^ 52 + bits % 2 ^ 52).log2 = 52 := by
      rw [Nat.log2_eq_iff (by omega)]
      omega
    rw [hexponent, if_neg (by omega), hmantissa, hlog, if_pos rfl, toNat_packComponents,
      BitVec.toNat_ofNat, BitVec.toNat_ofNat]
    simp only
    omega

section

variable (h : bits ≤ infinityBits)

include h

/-- Up to infinity, every word is the word of a double. -/
theorem pack_unpack_word :
    UnpackedFloat.pack Format.binary64 (UnpackedFloat.unpack Format.binary64 (word negative bits)) =
      word negative bits := by
  rcases Nat.eq_zero_or_pos bits with rfl | hpos
  · cases negative <;> rfl
  rcases Nat.lt_or_eq_of_le h with hfinite | rfl
  · rw [unpack_word hpos hfinite, pack_ofBits hpos hfinite]
  · cases negative <;> rfl

/-- Turning the sign of a word. -/
theorem pack_neg_word :
    UnpackedFloat.pack Format.binary64 (UnpackedFloat.unpack Format.binary64 (word negative bits)).neg =
      word (!negative) bits := by
  rcases Nat.eq_zero_or_pos bits with rfl | hpos
  · cases negative <;> rfl
  rcases Nat.lt_or_eq_of_le h with hfinite | rfl
  · rw [unpack_word hpos hfinite]
    cases negative with
    | false => exact @pack_ofBits true bits hpos hfinite _
    | true => exact @pack_ofBits false bits hpos hfinite _
  · cases negative <;> rfl

/-! ## Doubles -/

theorem toBits_signed : (signed negative bits).toBits = UInt64.ofBitVec (word negative bits) :=
  congrArg UInt64.ofBitVec (pack_unpack_word h)

theorem toNat_toBits_signed :
    (signed negative bits).toBits.toNat = (signOf negative).toBitVec.toNat * 2 ^ 63 + bits := by
  obtain ⟨-, -, -, hpow, hinfinity⟩ := pow_places
  rw [toBits_signed h]
  exact toNat_word (by omega)

theorem magnitudeBits_signed : magnitudeBits (signed negative bits) = bits := by
  obtain ⟨-, -, hpow, hpow', hinfinity⟩ := pow_places
  rw [magnitudeBits, toNat_toBits_signed h, hpow]
  omega

end

theorem eq_of_toBits_eq {x y : Float} (h : x.toBits = y.toBits) : x = y := by
  obtain ⟨⟨a, ha⟩⟩ := x
  obtain ⟨⟨b, hb⟩⟩ := y
  have hab : a = b := h
  subst hab
  rfl

/-- The word of a double is its sign and the bits below it. -/
theorem toBits_eq_word (x : Float) : x.toBits = UInt64.ofBitVec (word (isNegative x) (magnitudeBits x)) := by
  obtain ⟨-, -, hpow, hpow', -⟩ := pow_places
  have hlt : x.toBits.toNat < 2 ^ 64 := x.toBits.toNat_lt
  apply UInt64.toNat_inj.mp
  have hword : (UInt64.ofBitVec (word (isNegative x) (magnitudeBits x))).toNat =
      (signOf (isNegative x)).toBitVec.toNat * 2 ^ 63 + magnitudeBits x :=
    toNat_word (Nat.mod_lt _ (by decide))
  rw [hword, magnitudeBits, isNegative, signOf]
  rw [hpow]
  by_cases hsign : 9223372036854775808 ≤ x.toBits.toNat
  · have hminus : Sign.negative.toBitVec.toNat = 1 := rfl
    rw [if_pos (decide_eq_true hsign), hminus]
    omega
  · have hplain : Sign.positive.toBitVec.toNat = 0 := rfl
    rw [if_neg (by rw [decide_eq_true_eq]; exact hsign), hplain]
    omega

/-- A double up to infinity is given by its sign and the bits below it. -/
theorem eq_signed {x : Float} (h : magnitudeBits x ≤ infinityBits) : x = signed (isNegative x) (magnitudeBits x) :=
  eq_of_toBits_eq ((toBits_eq_word x).trans (toBits_signed h).symm)

theorem neg_signed (h : bits ≤ infinityBits) : -signed negative bits = signed (!negative) bits := by
  apply eq_of_toBits_eq
  rw [toBits_signed h]
  have hunpack : (signed negative bits).toModel.unpack = UnpackedFloat.unpack Format.binary64 (word negative bits) :=
    congrArg (UnpackedFloat.unpack Format.binary64) (congrArg UInt64.toBitVec (toBits_signed h))
  show UInt64.ofBitVec (UnpackedFloat.pack Format.binary64 (signed negative bits).toModel.unpack.neg) = _
  rw [hunpack, pack_neg_word h]

/-- What a double with the given bits below its sign unpacks to. -/
theorem unpack_eq (x : Float) : x.toModel.unpack =
    UnpackedFloat.unpack Format.binary64 (word (isNegative x) (magnitudeBits x)) :=
  congrArg (UnpackedFloat.unpack Format.binary64) (congrArg UInt64.toBitVec (toBits_eq_word x))

/-- A word from infinity on stands for no finite number. -/
theorem not_isFinite_unpack_word (h : infinityBits ≤ bits) (hlt : bits < 2 ^ 63) :
    (UnpackedFloat.unpack Format.binary64 (word negative bits)).isFinite = false := by
  obtain ⟨-, hpow, -, hpow', hinfinity⟩ := pow_places
  have hfull : unpackExponent (word negative bits) = -1#_ := by
    apply BitVec.eq_of_toNat_eq
    have hones : (-1#_ : BitVec Format.binary64.exponentBits).toNat = 2047 := rfl
    rw [toNat_unpackExponent_word hlt, hones]
    omega
  unfold UnpackedFloat.unpack
  dsimp only
  rw [if_pos hfull]
  split <;> rfl

theorem isFinite_iff (x : Float) : x.isFinite ↔ magnitudeBits x < infinityBits := by
  have hfinite : x.isFinite = x.toModel.unpack.isFinite := rfl
  rw [hfinite, unpack_eq]
  constructor
  · intro h
    by_contra hle
    rw [not_isFinite_unpack_word (Nat.le_of_not_lt hle) (Nat.mod_lt _ (by decide))] at h
    exact absurd h Bool.false_ne_true
  · intro h
    rcases Nat.eq_zero_or_pos (magnitudeBits x) with hzero | hpos
    · rw [hzero]
      cases isNegative x <;> rfl
    · rw [unpack_word hpos h]
      rfl

end

end QasmCircuit.Decimal
