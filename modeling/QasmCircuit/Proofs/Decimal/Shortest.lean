import QasmCircuit.Proofs.Decimal.Literal
import QasmCircuit.Proofs.Decimal.Nearest

/-!
# The shortest digits read back

The digits of a double are found by search: of the candidates with one digit, two digits and so on the first
one that reads back is taken, and the exact decimal expansion stands behind them all. So whatever the search
meets, its answer reads back (`shortest_bits`). The layout of the digits, positional or with an exponent,
spells a number with the same value (`Scientific.spells_chars`).

> `spells_magnitudeChars`: the text of a finite double without its sign is a number that reads as this double.
-/

namespace QasmCircuit.Decimal

open List

open Option (getD_some getD_none)

variable {bits n : Nat}

/-! ## The search -/

theorem Binary.mantissa_log2_mul_pow (m j : Nat) (hm : 0 < m) : 2 * j ≤ (m * Nat.pow 5 j).log2 := by
  have hpos : m * Nat.pow 5 j ≠ 0 := (Nat.mul_pos hm (Nat.pow_pos (by decide))).ne'
  rw [Nat.le_log2 hpos]
  calc 2 ^ (2 * j) = 4 ^ j := by rw [Nat.pow_mul]
    _ ≤ 5 ^ j := Nat.pow_le_pow_left (by decide) j
    _ ≤ m * Nat.pow 5 j := Nat.le_mul_of_pos_left _ hm

theorem Binary.exponent_ofBits (hfinite : bits < infinityBits) :
    -1074 ≤ (Binary.ofBits bits).exponent ∧ (Binary.ofBits bits).exponent ≤ 971 := by
  have hpow : Nat.pow 2 52 = 4503599627370496 := rfl
  have hinfinity : infinityBits = 9218868437227405312 := rfl
  unfold Binary.ofBits
  dsimp only
  rw [hpow]
  split
  · exact ⟨le_refl _, by dsimp only; omega⟩
  · dsimp only
    omega

/-- The exact decimal expansion of a double reads back. -/
theorem Binary.exact_bits (hpos : 0 < bits) (hfinite : bits < infinityBits) :
    (Binary.ofBits bits).exact.bits = bits := by
  have hx := Binary.represents_ofBits hpos
  have hexp := Binary.exponent_ofBits hfinite
  generalize Binary.ofBits bits = x at hx hexp
  obtain ⟨m, e⟩ := x
  have hm : 0 < m := hx.pos
  dsimp only at hexp
  unfold Binary.exact
  dsimp only
  split
  · next he =>
    obtain ⟨j, rfl⟩ : ∃ j : Nat, e = -(j : Int) := ⟨(-e).toNat, by omega⟩
    have hdigits : 0 < m * Nat.pow 5 j := Nat.mul_pos hm (Nat.pow_pos (by decide))
    have hlog := Binary.mantissa_log2_mul_pow m j hm
    rw [neg_neg, Int.toNat_natCast, Scientific.bits, if_neg (by dsimp only; omega),
      if_neg (by dsimp only; omega), if_neg (by dsimp only; omega)]
    have hzero : (-(j : Int)).toNat = 0 := by omega
    dsimp only
    rw [hzero, neg_neg, Int.toNat_natCast]
    refine nearestBits_exact (Nat.mul_pos hdigits (by decide)) (Nat.pow_pos (by decide)) hfinite hx ?_
    -- The powers of five cancel, and the powers of two stay.
    simp only [Nat.pow_eq, pow_zero, mul_one, Nat.cast_mul, Nat.cast_pow, Nat.cast_ofNat, zpow_neg, zpow_natCast]
    rw [show (10 : ℚ) = 2 * 5 by norm_num, mul_pow]
    field_simp
  · next he =>
    obtain ⟨j, rfl⟩ : ∃ j : Nat, e = (j : Int) := ⟨e.toNat, by omega⟩
    have hdigits : 0 < m * Nat.pow 2 j := Nat.mul_pos hm (Nat.pow_pos (by decide))
    rw [Int.toNat_natCast, Scientific.bits, if_neg (by dsimp only; omega), if_neg (by dsimp only; omega),
      if_neg (by dsimp only; omega)]
    have hone : 0 < Nat.pow 10 0 := by decide
    refine nearestBits_exact (Nat.mul_pos hdigits hone) hone hfinite hx ?_
    simp

theorem Binary.candidate?_bits {x : Binary} {d : Scientific} (h : x.candidate? bits n = some d) : d.bits = bits := by
  unfold Binary.candidate? at h
  have hfound := find?_some h
  exact of_decide_eq_true hfound

/-- Whatever digits the search finds, they read back as the double. -/
theorem shortest_bits (hpos : 0 < bits) (hfinite : bits < infinityBits) : (shortest bits).bits = bits := by
  have hfound : (((List.range 17).findSome? fun n =>
      (Binary.ofBits bits).candidate? bits (n + 1)).getD (Binary.ofBits bits).exact).bits = bits := by
    cases hsearch : (List.range 17).findSome? fun n => (Binary.ofBits bits).candidate? bits (n + 1) with
    | none => exact Binary.exact_bits hpos hfinite
    | some d =>
      obtain ⟨n, -, hn⟩ := exists_of_findSome?_eq_some hsearch
      exact Binary.candidate?_bits hn
  unfold shortest
  dsimp only
  split
  · next h => exact h
  · exact hfound

/-! ## The layout of the digits -/

/-- A text without a sign that stands for the double with the given bits. -/
structure Spells (cs : List Char) (bits : Nat) : Prop where
  isNumber : Lexeme.isNumber (String.ofList cs)
  real?_eq : real? (String.ofList cs) = some (signed false bits)

/-- Digits with a point and an exponent spell the number with these digits and the exponent of the last of
them. -/
theorem spells_of_layout (whole : List Char) (fraction : Option (List Char)) (e : Option Int)
    (hne : whole ≠ []) (hwhole : ∀ c ∈ whole, c.isDigit)
    (hfraction : ∀ fs ∈ fraction, ∀ c ∈ fs, c.isDigit) {cs : List Char} {d : Scientific}
    (hcs : cs = whole ++ (fractionChars fraction ++ scaleChars e))
    (hdigits : digitsValue (whole ++ fraction.getD []) = d.digits)
    (hexponent : e.getD 0 - ((fraction.getD []).length : Int) = d.exponent) : Spells cs d.bits := by
  have hreal := real?_decimal hne hwhole hfraction e
  rw [hdigits, hexponent] at hreal
  rw [hcs]
  exact ⟨isNumber_decimal hne hwhole hfraction e, hreal⟩

theorem Scientific.bits_of_range {e : Int} (hn : 0 < n) (hlow : -401 ≤ e) (hhigh : e ≤ 400) :
    Scientific.bits ⟨n, e⟩ = nearestBits (n * Nat.pow 10 e.toNat) (Nat.pow 10 (-e).toNat) := by
  rw [Scientific.bits, if_neg (by dsimp only; omega), if_neg (by dsimp only; omega), if_neg (by dsimp only; omega)]

/-- Zeros behind the digits up to the point, and one behind it, do not change the value. -/
theorem Scientific.bits_fill {k : Nat} (hn : 0 < n) (hk : k ≤ 400) :
    Scientific.bits ⟨n * 10 ^ (k + 1), -1⟩ = Scientific.bits ⟨n, k⟩ := by
  have hfilled : 0 < n * 10 ^ (k + 1) := Nat.mul_pos hn (Nat.pow_pos (by decide))
  have hzero : (-(k : Int)).toNat = 0 := by omega
  have hpoint : (-1 : Int).toNat = 0 := rfl
  have hbehind : (- -1 : Int).toNat = 1 := rfl
  rw [Scientific.bits_of_range hfilled (by decide) (by decide),
    Scientific.bits_of_range hn (by omega) (by omega), hzero, hpoint, hbehind,
    Int.toNat_natCast]
  apply nearestBits_congr (Nat.pow_pos (by decide)) (Nat.pow_pos (by decide))
  simp only [Nat.pow_eq, Nat.pow_zero, Nat.pow_one, Nat.mul_one]
  rw [Nat.pow_succ, Nat.mul_assoc]

theorem isDigit_of_mem_replicate {k : Nat} {c : Char} (h : c ∈ replicate k '0') : c.isDigit := by
  rw [(List.mem_replicate.mp h).2]
  decide

theorem isDigit_of_mem_zero {c : Char} (h : c ∈ ['0']) : c.isDigit := by
  rw [List.mem_singleton.mp h]
  decide

/-- Digits around a point, filled up with zeros, spell the number with these digits. -/
theorem Scientific.spells_positional {e : Int} (hn : 0 < n) (hhigh : e + (digitChars n).length ≤ 16) :
    Spells (positional (digitChars n) (e + (digitChars n).length)) (Scientific.bits ⟨n, e⟩) := by
  have hdigits : ∀ c ∈ digitChars n, c.isDigit := fun c => isDigit_of_mem_digitChars
  have hne : digitChars n ≠ [] := Nat.toDigits_ne_nil
  have hvalue := digitsValue_digitChars n
  generalize digitChars n = ds at *
  unfold positional
  split
  · -- The point stands before all digits.
    next hpoint =>
    refine spells_of_layout ['0'] (some (replicate (-(e + ds.length)).toNat '0' ++ ds)) none
      (by decide) (fun _ => isDigit_of_mem_zero) ?_ ?_ ?_ ?_
    · rintro fs ⟨⟩
      exact List.forall_mem_append.mpr ⟨fun _ => isDigit_of_mem_replicate, hdigits⟩
    · simp [fractionChars, scaleChars]
    · rw [getD_some, singleton_append, ← cons_append, ← replicate_succ, digitsValue_replicate_append, hvalue]
    · rw [getD_none, getD_some, length_append, length_replicate]
      dsimp only
      omega
  split
  · -- The point stands behind all digits, with zeros between them and a zero behind it.
    next hpoint hlength =>
    obtain ⟨k, rfl⟩ : ∃ k : Nat, e = k := ⟨e.toNat, by omega⟩
    have hfill : (k + ds.length : Int).toNat - ds.length = k := by omega
    rw [hfill, ← Scientific.bits_fill hn (by omega)]
    refine spells_of_layout (ds ++ replicate k '0') (some ['0']) none ?_ ?_ ?_ ?_ ?_ ?_
    · exact append_ne_nil_of_left_ne_nil hne _
    · exact List.forall_mem_append.mpr ⟨hdigits, fun _ => isDigit_of_mem_replicate⟩
    · rintro fs ⟨⟩ c hc
      exact isDigit_of_mem_zero hc
    · simp [fractionChars, scaleChars]
    · rw [getD_some, append_assoc, ← replicate_succ', digitsValue_append_replicate, hvalue]
    · rfl
  · -- The point stands between two digits.
    next hpoint hlength =>
    refine spells_of_layout (ds.take (e + ds.length).toNat) (some (ds.drop (e + ds.length).toNat)) none
      ?_ ?_ ?_ ?_ ?_ ?_
    · rw [Ne, take_eq_nil_iff, not_or]
      exact ⟨by omega, hne⟩
    · exact fun c hc => hdigits c (mem_of_mem_take hc)
    · rintro fs ⟨⟩ c hc
      exact hdigits c (mem_of_mem_drop hc)
    · simp [fractionChars, scaleChars]
    · rw [getD_some, take_append_drop, hvalue]
    · rw [getD_none, getD_some, length_drop]
      dsimp only
      omega

/-- Digits with a point behind the first one and an exponent spell the number with these digits. -/
theorem Scientific.spells_exponential (n : Nat) (e : Int) :
    Spells (exponential (digitChars n) (e + (digitChars n).length - 1)) (Scientific.bits ⟨n, e⟩) := by
  have hdigits : ∀ c ∈ digitChars n, c.isDigit := fun c => isDigit_of_mem_digitChars
  have hne : digitChars n ≠ [] := Nat.toDigits_ne_nil
  have hvalue := digitsValue_digitChars n
  generalize digitChars n = ds at *
  match ds, hne with
  | [c], _ =>
    refine spells_of_layout [c] none (some (e + 1 - 1)) (cons_ne_nil _ _) hdigits ?_ ?_ ?_ ?_
    · exact fun fs hfs => absurd hfs (by simp)
    · rfl
    · rw [getD_none, append_nil, hvalue]
    · rw [getD_some, getD_none, length_nil]
      dsimp only
      omega
  | c :: b :: rest, _ =>
    refine spells_of_layout [c] (some (b :: rest)) (some (e + (c :: b :: rest).length - 1))
      (cons_ne_nil _ _) ?_ ?_ ?_ ?_ ?_
    · intro a ha
      exact hdigits a (List.mem_singleton.mp ha ▸ mem_cons_self)
    · rintro fs ⟨⟩ a ha
      exact hdigits a (mem_cons_of_mem c ha)
    · rfl
    · rw [getD_some, singleton_append, hvalue]
    · rw [getD_some, getD_some, @length_cons _ c]
      dsimp only
      omega

theorem Scientific.spells_chars {d : Scientific} (hd : 0 < d.digits) : Spells d.chars d.bits := by
  unfold Scientific.chars
  dsimp only
  split
  · next h =>
    rw [Bool.and_eq_true, decide_eq_true_eq, decide_eq_true_eq] at h
    exact Scientific.spells_positional hd h.2
  · exact Scientific.spells_exponential d.digits d.exponent

/-- The text of a finite double without its sign is a number that reads as this double. -/
theorem spells_magnitudeChars (hfinite : bits < infinityBits) : Spells (magnitudeChars bits) bits := by
  unfold magnitudeChars
  split
  · next hzero =>
    rw [hzero]
    exact @spells_of_layout ['0'] (some ['0']) none (by decide) (fun _ => isDigit_of_mem_zero)
      (by rintro fs ⟨⟩ c hc; exact isDigit_of_mem_zero hc) "0.0".toList ⟨0, -1⟩ rfl rfl rfl
  · next hpos =>
    have hbits := shortest_bits (Nat.pos_of_ne_zero hpos) hfinite
    have hdigits : 0 < (shortest bits).digits := by
      rw [Nat.pos_iff_ne_zero]
      intro hzero
      rw [Scientific.bits, if_pos hzero] at hbits
      exact hpos hbits.symm
    rw [if_neg (by omega), if_neg (by omega)]
    have hchars := Scientific.spells_chars hdigits
    rwa [hbits] at hchars

end QasmCircuit.Decimal
