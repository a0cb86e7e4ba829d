import Mathlib.Algebra.Order.Field.Power
import Mathlib.Data.Int.Log
import Mathlib.Data.Rat.Floor
import Mathlib.Tactic.FieldSimp
import Mathlib.Tactic.Positivity
import Mathlib.Tactic.Ring
import QasmCircuit.Decimal.Nearest

/-!
# Rounding depends on the quotient only

The rounding of `num / den` to a double is done in integers, and the same quotient can be written with many
numerators and denominators. Here the place of the last digit is tied to the quotient as a rational number
(`floorLog_eq`), and with it the whole rounding.

> `nearestBits_congr`: equal quotients round to the same double.
>
> `nearestBits_exact`: a double is the double nearest to its own value.
-/

namespace QasmCircuit.Decimal

variable {a b c d den num bits : Nat}

theorem roundQuotient_mul {k : Nat} (hk : 0 < k) (num den : Nat) :
    roundQuotient (k * num) (k * den) = roundQuotient num den := by
  have htwice : 2 * (k * num % (k * den)) = k * (2 * (num % den)) := by
    rw [Nat.mul_mod_mul_left]
    ring
  simp only [roundQuotient, Nat.mul_div_mul_left _ _ hk, htwice, Nat.mul_lt_mul_left hk]

theorem roundQuotient_congr (hb : 0 < b) (hd : 0 < d) (h : a * d = c * b) :
    roundQuotient a b = roundQuotient c d := by
  rw [← roundQuotient_mul hd a b, ← roundQuotient_mul hb c d, Nat.mul_comm d a, h, Nat.mul_comm b c, Nat.mul_comm d b]

/-- The two powers that scale a quotient. -/
theorem pow_toNat_div (p : Int) : (2 : ℚ) ^ (-p).toNat / 2 ^ p.toNat = 2 ^ (-p) := by
  have htwo : (2 : ℚ) ≠ 0 := by norm_num
  rw [← zpow_natCast, ← zpow_natCast, ← zpow_sub₀ htwo]
  congr 1
  omega

theorem scaledDen_pos (hden : 0 < den) (p : Int) : 0 < scaledDen den p :=
  Nat.mul_pos hden (Nat.pow_pos (by decide))

theorem scaled_div (num den : Nat) (p : Int) : (scaledNum num p : ℚ) / scaledDen den p = num / den * 2 ^ (-p) := by
  rw [scaledNum, scaledDen, ← pow_toNat_div, Nat.pow_eq, Nat.pow_eq]
  push_cast
  rw [mul_div_mul_comm]

theorem scaledDen_le_scaledNum_iff (hden : 0 < den) (p : Int) :
    scaledDen den p ≤ scaledNum num p ↔ (2 : ℚ) ^ p ≤ num / den := by
  have hpos : (0 : ℚ) < scaledDen den p := by exact_mod_cast scaledDen_pos hden p
  have htwo : (0 : ℚ) < 2 ^ p := by positivity
  rw [← @Nat.cast_le ℚ, ← one_le_div hpos, scaled_div, zpow_neg, ← div_eq_mul_inv, one_le_div htwo]

/-- A natural number lies between the powers of two around it. -/
theorem log2_bounds {n : Nat} (hn : 0 < n) : (2 : ℚ) ^ (n.log2 : Int) ≤ n ∧ (n : ℚ) < 2 ^ ((n.log2 : Int) + 1) := by
  have hne : n ≠ 0 := Nat.pos_iff_ne_zero.mp hn
  constructor
  · rw [zpow_natCast]
    exact_mod_cast Nat.log2_self_le hne
  · have hlt : n < 2 ^ (n.log2 + 1) := Nat.lt_log2_self
    have hcast : ((n.log2 : Int) + 1) = ((n.log2 + 1 : Nat) : Int) := by push_cast; rfl
    rw [hcast, zpow_natCast]
    exact_mod_cast hlt

theorem log_eq {q : ℚ} {f : Int} (hle : 2 ^ f ≤ q) (hlt : q < 2 ^ (f + 1)) : Int.log 2 q = f := by
  have hq : 0 < q := lt_of_lt_of_le (by positivity) hle
  have hle' := (Int.zpow_le_iff_le_log (b := 2) (by decide) hq).mp (by exact_mod_cast hle)
  have hlt' := (Int.lt_zpow_iff_log_lt (b := 2) (by decide) hq).mp (by exact_mod_cast hlt)
  omega

/-- The place of the first binary digit is the logarithm of the quotient. -/
theorem floorLog_eq (hnum : 0 < num) (hden : 0 < den) :
    floorLog num den = Int.log 2 (num / den : ℚ) := by
  have hdenq : (0 : ℚ) < den := by exact_mod_cast hden
  have htwo : (2 : ℚ) ≠ 0 := by norm_num
  obtain ⟨hnum₁, hnum₂⟩ := log2_bounds hnum
  obtain ⟨hden₁, hden₂⟩ := log2_bounds hden
  -- The guess from the two logarithms is at most one too large.
  have hlow : (2 : ℚ) ^ ((num.log2 : Int) - den.log2 - 1) ≤ num / den := by
    rw [le_div_iff₀ hdenq]
    calc (2 : ℚ) ^ ((num.log2 : Int) - den.log2 - 1) * den
        ≤ 2 ^ ((num.log2 : Int) - den.log2 - 1) * 2 ^ ((den.log2 : Int) + 1) := by gcongr
      _ = 2 ^ (num.log2 : Int) := by rw [← zpow_add₀ htwo]; congr 1; ring
      _ ≤ num := hnum₁
  have hhigh : (num / den : ℚ) < 2 ^ ((num.log2 : Int) - den.log2 + 1) := by
    rw [div_lt_iff₀ hdenq]
    calc (num : ℚ) < 2 ^ ((num.log2 : Int) + 1) := hnum₂
      _ = 2 ^ ((num.log2 : Int) - den.log2 + 1) * 2 ^ (den.log2 : Int) := by
        rw [← zpow_add₀ htwo]; congr 1; ring
      _ ≤ 2 ^ ((num.log2 : Int) - den.log2 + 1) * den := by gcongr
  unfold floorLog
  dsimp only
  split
  · next h => exact (log_eq ((scaledDen_le_scaledNum_iff hden _).mp h) hhigh).symm
  · next h =>
    refine (log_eq hlow ?_).symm
    rw [sub_add_cancel]
    exact not_le.mp fun hle => h ((scaledDen_le_scaledNum_iff hden _).mpr hle)

/-- Equal quotients round to the same double. -/
theorem nearestBits_congr (hb : 0 < b) (hd : 0 < d) (h : a * d = c * b) :
    nearestBits a b = nearestBits c d := by
  rcases Nat.eq_zero_or_pos a with rfl | ha
  · have hc : c = 0 := by
      rw [Nat.zero_mul] at h
      rcases Nat.mul_eq_zero.mp h.symm with hc | hb'
      · exact hc
      · omega
    rw [hc, nearestBits, nearestBits, if_pos rfl, if_pos rfl]
  · have hc : 0 < c := Nat.pos_of_mul_pos_right (h ▸ Nat.mul_pos ha hd)
    have hplace : lastPlace a b = lastPlace c d := by
      have hquotient : (a / b : ℚ) = c / d := by
        rw [div_eq_div_iff (by positivity) (by positivity)]
        exact_mod_cast h
      rw [lastPlace, lastPlace, floorLog_eq ha hb, floorLog_eq hc hd, hquotient]
    have hscaled : ∀ p, scaledNum a p * scaledDen d p = scaledNum c p * scaledDen b p := by
      intro p
      rw [scaledNum, scaledNum, scaledDen, scaledDen, Nat.mul_mul_mul_comm, h, Nat.mul_mul_mul_comm]
    rw [nearestBits, nearestBits, if_neg (by omega), if_neg (by omega), hplace]
    dsimp only
    rw [roundQuotient_congr (scaledDen_pos hb _) (scaledDen_pos hd _) (hscaled _)]

/-! ## A double rounds to itself -/

/-- The value of a double is a mantissa in units of its last binary place. The place says how far its
logarithm may be from it, and the two together are its bits. -/
structure Binary.Represents (x : Binary) (bits : Nat) : Prop where
  pos : 0 < x.mantissa
  place : max (Int.log 2 (x.mantissa * 2 ^ x.exponent : ℚ) - 52) (-1074) = x.exponent
  bits_eq : x.mantissa + (x.exponent + 1074).toNat * Nat.pow 2 52 = bits

theorem log_mantissa {m f : Nat} (x : Int) (hle : 2 ^ f ≤ m) (hlt : m < 2 ^ (f + 1)) :
    Int.log 2 (m * 2 ^ x : ℚ) = f + x := by
  apply log_eq
  · rw [zpow_add₀ two_ne_zero, zpow_natCast]
    gcongr
    exact_mod_cast hle
  · rw [add_right_comm, zpow_add₀ two_ne_zero]
    gcongr
    exact_mod_cast hlt

theorem Binary.represents_ofBits (hpos : 0 < bits) : (Binary.ofBits bits).Represents bits := by
  have hpow : Nat.pow 2 52 = 4503599627370496 := rfl
  unfold Binary.ofBits
  dsimp only
  rw [hpow]
  split
  · next he =>
    -- Below the normal doubles the last place is the least one.
    have hm : bits % 4503599627370496 = bits := by omega
    rw [hm]
    have hlt : bits < 2 ^ 52 := by omega
    have hlog : bits.log2 < 52 := (Nat.log2_lt (by omega)).mpr hlt
    refine ⟨hpos, ?_, by simp⟩
    dsimp only
    rw [log_mantissa _ (Nat.log2_self_le (by omega)) Nat.lt_log2_self]
    omega
  · next he =>
    have hm : bits % 4503599627370496 < 4503599627370496 := Nat.mod_lt _ (by decide)
    refine ⟨by dsimp only; omega, ?_, ?_⟩
    · dsimp only
      rw [log_mantissa (f := 52) _ (by omega) (by omega)]
      omega
    · dsimp only
      rw [hpow]
      omega

/-- A quotient that is a double rounds to that double. -/
theorem nearestBits_exact (hnum : 0 < num) (hden : 0 < den)
    (hfinite : bits < infinityBits) {x : Binary} (hx : x.Represents bits)
    (h : (num / den : ℚ) = x.mantissa * 2 ^ x.exponent) : nearestBits num den = bits := by
  have hplace : lastPlace num den = x.exponent := by
    rw [lastPlace, floorLog_eq hnum hden, h, hx.place]
  have hunits : scaledNum num x.exponent = x.mantissa * scaledDen den x.exponent := by
    have hdiv := scaled_div num den x.exponent
    rw [h, mul_assoc, ← zpow_add₀ two_ne_zero, add_neg_cancel, zpow_zero, mul_one] at hdiv
    rw [div_eq_iff (by exact_mod_cast (scaledDen_pos hden _).ne')] at hdiv
    exact_mod_cast hdiv
  rw [nearestBits, if_neg (by omega)]
  dsimp only
  rw [hplace, hunits, roundQuotient_exact _ _ (scaledDen_pos hden _), hx.bits_eq]
  omega

end QasmCircuit.Decimal
