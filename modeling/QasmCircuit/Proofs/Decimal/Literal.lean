import Mathlib.Algebra.Group.Nat.Defs
import QasmCircuit.Proofs.Token.Lexing

/-!
# Decimal texts and their values

Texts of digits, a point and an exponent read as what they spell: nothing in them is trimmed, translated or
dropped on the way (`numberChars_of_plain`).

> `digitsValue_toString`: the text of a natural number reads as that number.
>
> `scientific?_decimal`: digits with a point and an exponent read as the number they spell.
-/

namespace QasmCircuit.Decimal

open Text
open Option (map_some getD_some any_some)
open Lexeme (exponent sign digits_append_of_stop isNumber digits number? all_digits)
open List (mem_cons_self mem_append not_mem_nil)

/-- The characters of the texts that numbers are written with. -/
def isPlain (c : Char) : Bool := c.isDigit || c = '.' || c = 'e' || c = 'E' || c = '+' || c = '-'

variable {c : Char} {p : Char → Bool} {cs : List Char} {s : String}

theorem isPlain_of_isDigit (h : c.isDigit) : isPlain c := by
  simp [isPlain, h]

theorem isPlain_iff : isPlain c ↔ c.isDigit ∨ c = '.' ∨ c = 'e' ∨ c = 'E' ∨ c = '+' ∨ c = '-' := by
  simp [isPlain, or_assoc]

/-- The code of an ASCII digit. -/
theorem toNat_of_isDigit (h : c.isDigit) : 48 ≤ c.toNat ∧ c.toNat ≤ 57 := by
  simp only [Char.isDigit, Bool.and_eq_true, decide_eq_true_eq, ge_iff_le, UInt32.le_iff_toNat_le] at h
  have hzero : '0'.val.toNat = 48 := rfl
  have hnine : '9'.val.toNat = 57 := rfl
  have hc : c.toNat = c.val.toNat := rfl
  omega

theorem toLower_of_isDigit (h : c.isDigit) : c.toLower = c := by
  have hcode := toNat_of_isDigit h
  have hc : c.toNat = c.val.toNat := rfl
  have hupper : 'A'.val.toNat = 65 := rfl
  unfold Char.toLower
  rw [dif_neg]
  rw [ge_iff_le, UInt32.le_iff_toNat_le]
  omega

theorem not_isPadding_of_isPlain (h : isPlain c) : isPadding c = false := by
  rcases isPlain_iff.mp h with hdigit | rfl | rfl | rfl | rfl | rfl
  · have hcode := toNat_of_isDigit hdigit
    simp only [isPadding, isBlank, Bool.and_eq_false_iff, Bool.or_eq_false_iff, decide_eq_false_iff_not,
      beq_eq_false_iff_ne]
    omega
  all_goals decide

/-- Digits have their own value, and the other plain characters have none. -/
theorem ascii_of_isPlain (h : isPlain c) : (match digitValue c with
      | some d => Char.ofNat (48 + d)
      | none => c) = c := by
  rcases isPlain_iff.mp h with hdigit | rfl | rfl | rfl | rfl | rfl
  · obtain ⟨hlow, hhigh⟩ := toNat_of_isDigit hdigit
    have hvalue : digitValue c = some (c.toNat - 48) := by
      have hrun : (decide (48 ≤ c.toNat) && decide (c.toNat < 48 + 10)) := by
        rw [Bool.and_eq_true, decide_eq_true_eq, decide_eq_true_eq]
        omega
      have hfind : zeroDigits.find? (fun z => decide (z ≤ c.toNat) && decide (c.toNat < z + 10)) = some 48 := by
        show (48 :: zeroDigits.tail).find? _ = some 48
        exact List.find?_cons_of_pos hrun
      rw [digitValue, hfind]
      rfl
    rw [hvalue]
    show Char.ofNat (48 + (c.toNat - 48)) = c
    rw [Nat.add_sub_cancel' hlow, Char.ofNat_toNat]
  all_goals decide

theorem ne_underscore_of_isPlain (h : isPlain c) : c ≠ '_' := by
  rintro rfl
  exact absurd h (by decide)

theorem dropWhile_of_all_not (h : ∀ c ∈ cs, p c = false) : cs.dropWhile p = cs := by
  cases cs with
  | nil => rfl
  | cons c cs => rw [List.dropWhile_cons, h c mem_cons_self]; rfl

theorem trimWhere_of_all_not (h : ∀ c ∈ cs, p c = false) : trimWhere p cs = cs := by
  rw [trimWhere, dropWhile_of_all_not h,
    dropWhile_of_all_not fun c hc => h c (List.mem_reverse.mp hc), List.reverse_reverse]

theorem asciiDigits_of_plain (h : ∀ c ∈ cs, isPlain c) : asciiDigits cs = cs := by
  have hmap := List.map_congr_left fun c hc => ascii_of_isPlain (h c hc)
  exact hmap.trans (List.map_id cs)

theorem dropUnderscores_of_plain {before : Char} (hbefore : before ≠ '_')
    (h : ∀ c ∈ cs, isPlain c) : dropUnderscores before cs = some cs := by
  induction cs generalizing before with
  | nil => rw [dropUnderscores, if_neg hbefore]
  | cons c cs ih =>
    have hc := ne_underscore_of_isPlain (h c mem_cons_self)
    have hrest := ih hc fun d hd => h d (List.mem_cons_of_mem _ hd)
    rw [dropUnderscores, if_neg hc, decide_eq_false hbefore, Bool.false_and, if_neg Bool.false_ne_true, hrest]
    rfl

/-- A plain text is read as it is. -/
theorem numberChars_of_plain (h : ∀ c ∈ s.toList, isPlain c) : numberChars s = some s.toList := by
  rw [numberChars, trimWhere_of_all_not fun c hc => not_isPadding_of_isPlain (h c hc),
    asciiDigits_of_plain h, dropUnderscores_of_plain (by decide) h]

/-! ## Integers -/

theorem digitsValue_eq (ds : List Char) : digitsValue ds = Nat.ofDigitChars 10 ds 0 := by
  rw [digitsValue, ofDigits, List.foldl_map, Nat.ofDigitChars_eq_foldl]
  rfl

theorem splitDigits_of_all {ds : List Char} (h : ∀ c ∈ ds, c.isDigit) : splitDigits ds = (ds, []) := by
  rw [splitDigits, List.takeWhile_eq_self_iff.mpr h, List.dropWhile_eq_nil_iff.mpr h]

theorem splitSign_of_digit (h : c.isDigit) : splitSign (c :: cs) = (false, c :: cs) := by
  unfold splitSign
  split
  · next heq =>
    rw [(List.cons.inj heq).1] at h
    exact absurd h (by decide)
  · next heq =>
    rw [(List.cons.inj heq).1] at h
    exact absurd h (by decide)
  · rfl

theorem integer?_of_isInteger (h : Lexeme.isInteger s) : integer? s = some (digitsValue s.toList : Int) := by
  obtain ⟨hne, hall⟩ := Lexeme.isInteger_iff.mp h
  obtain ⟨c, cs, hcs⟩ := List.exists_cons_of_ne_nil hne
  have hc : c.isDigit := hall c (by rw [hcs]; exact mem_cons_self)
  have hsign : splitSign s.toList = (false, s.toList) := by rw [hcs]; exact splitSign_of_digit hc
  have hempty : (s.toList.isEmpty || !([] : List Char).isEmpty) = false := by rw [hcs]; rfl
  rw [integer?, numberChars_of_plain fun d hd => isPlain_of_isDigit (hall d hd)]
  simp only [Option.bind_eq_bind, Option.bind_some, hsign, splitDigits_of_all hall, hempty,
    Bool.false_eq_true, if_false]
  rfl

theorem isInteger_toString (n : Nat) : Lexeme.isInteger (toString n) := by
  rw [Lexeme.isInteger_iff, Nat.toString_eq_repr, Nat.toList_repr]
  exact ⟨Nat.toDigits_ne_nil, fun c hc => Nat.isDigit_of_mem_toDigits (by decide) (by decide) hc⟩

theorem digitsValue_toString (n : Nat) : digitsValue (toString n).toList = n := by
  rw [digitsValue_eq, Nat.toString_eq_repr, Nat.toList_repr, Nat.ofDigitChars_ten_toDigits]

/-! ## Digits with a point and an exponent -/

/-- A point with the digits behind it, or nothing. -/
def fractionChars (fraction : Option (List Char)) : List Char := (fraction.map ('.' :: ·)).getD []

/-- An exponent, or nothing. -/
def scaleChars (e : Option Int) : List Char := (e.map exponentChars).getD []

theorem isDigit_of_mem_digitChars {n : Nat} (h : c ∈ digitChars n) : c.isDigit :=
  Nat.isDigit_of_mem_toDigits (by decide) (by decide) h

theorem digitsValue_digitChars (n : Nat) : digitsValue (digitChars n) = n := by
  rw [digitsValue_eq, digitChars, Nat.ofDigitChars_ten_toDigits]

/-- Zeros in front of digits do not count. -/
theorem digitsValue_replicate_append (n : Nat) (ds : List Char) :
    digitsValue (List.replicate n '0' ++ ds) = digitsValue ds := by
  rw [digitsValue_eq, digitsValue_eq, Nat.ofDigitChars_append, Nat.ofDigitChars_replicate_zero, Nat.mul_zero]

/-- Zeros behind digits are powers of ten. -/
theorem digitsValue_append_replicate (n : Nat) (ds : List Char) :
    digitsValue (ds ++ List.replicate n '0') = digitsValue ds * 10 ^ n := by
  rw [digitsValue_eq, digitsValue_eq, Nat.ofDigitChars_append, Nat.ofDigitChars_replicate_zero, Nat.mul_comm]

/-- An exponent is a sign and digits of its absolute value. -/
theorem exponentChars_eq (e : Int) : ∃ ds, exponentChars e = 'e' :: (if e < 0 then '-' else '+') :: ds ∧
    ds ≠ [] ∧ (∀ c ∈ ds, c.isDigit) ∧ digitsValue ds = e.natAbs := by
  refine ⟨_, rfl, ?_, ?_, ?_⟩
  · split
    · exact List.cons_ne_nil _ _
    · exact Nat.toDigits_ne_nil
  · split
    · exact List.forall_mem_cons.mpr ⟨by decide, fun c hc => isDigit_of_mem_digitChars hc⟩
    · exact fun c hc => isDigit_of_mem_digitChars hc
  · split
    · exact (digitsValue_replicate_append 1 _).trans (digitsValue_digitChars _)
    · exact digitsValue_digitChars _

theorem exponent?_scaleChars (e : Option Int) : exponent? (scaleChars e) = some (e.getD 0) := by
  cases e with
  | none => rfl
  | some e =>
    obtain ⟨ds, hchars, hne, hall, hvalue⟩ := exponentChars_eq e
    have hsign : splitSign ((if e < 0 then '-' else '+') :: ds) = (decide (e < 0), ds) := by
      by_cases he : e < 0
      · rw [if_pos he, decide_eq_true he]; rfl
      · rw [if_neg he, decide_eq_false he]; rfl
    have hempty : (ds.isEmpty || !([] : List Char).isEmpty) = false := by
      rw [List.isEmpty_eq_false_iff.mpr hne]; rfl
    show exponent? (exponentChars e) = some e
    rw [hchars]
    simp only [exponent?, decide_true, Bool.true_or, if_true, hsign, splitDigits_of_all hall, hempty,
      Bool.false_eq_true, if_false, hvalue]
    by_cases he : e < 0
    · simp only [he, decide_true, if_true, Option.some.injEq]
      omega
    · simp only [he, decide_false, Bool.false_eq_true, if_false, Option.some.injEq]
      omega

theorem lexExponent_scaleChars (e : Option Int) : exponent (scaleChars e) = (scaleChars e, []) := by
  cases e with
  | none => rfl
  | some e =>
    obtain ⟨ds, hchars, hne, hall, -⟩ := exponentChars_eq e
    have hsign : sign ((if e < 0 then '-' else '+') :: ds) = ([if e < 0 then '-' else '+'], ds) := by
      by_cases he : e < 0
      · rw [if_pos he]; rfl
      · rw [if_neg he]; rfl
    have hempty : ds.isEmpty = false := List.isEmpty_eq_false_iff.mpr hne
    show exponent (exponentChars e) = (exponentChars e, [])
    rw [hchars]
    simp only [exponent, decide_true, Bool.true_or, if_true, hsign, Lexeme.digits_eq_self hall,
      hempty, Bool.false_eq_true, if_false]
    rfl

theorem head_scaleChars (e : Option Int) : ∀ c ∈ (scaleChars e).head?, c.isDigit = false ∧ c ≠ '.' := by
  cases e with
  | none => exact fun c hc => absurd hc (by simp [scaleChars])
  | some e =>
    intro c hc
    obtain ⟨ds, hchars, -⟩ := exponentChars_eq e
    rw [scaleChars, map_some, getD_some, hchars, List.head?_cons, Option.mem_some_iff] at hc
    rw [← hc]
    decide

theorem head_fractionChars (fraction : Option (List Char)) (e : Option Int) :
    ∀ c ∈ (fractionChars fraction ++ scaleChars e).head?, c.isDigit = false := by
  cases fraction with
  | none => exact fun c hc => (head_scaleChars e c hc).1
  | some fs =>
    intro c hc
    rw [fractionChars, map_some, getD_some, List.cons_append, List.head?_cons, Option.mem_some_iff] at hc
    rw [← hc]
    decide

/-- A text that begins like a number is no name of infinity and not the name of no number. -/
theorem real?_of_scientific? {q : Scientific} (hplain : ∀ d ∈ c :: cs, isPlain d)
    (hc : c.isDigit ∨ c = '.') (hq : scientific? (c :: cs) = some q) :
    real? (String.ofList (c :: cs)) = some (signed false q.bits) := by
  have hsign : splitSign (c :: cs) = (false, c :: cs) := by
    rcases hc with hc | rfl
    · exact splitSign_of_digit hc
    · rfl
  have hlower : (c.toLower.isDigit || c.toLower = '.') := by
    rcases hc with hc | rfl
    · rw [toLower_of_isDigit hc, hc, Bool.true_or]
    · decide
  have hnames : magnitude? (c :: cs) = (scientific? (c :: cs)).map Scientific.bits := by
    have hne : ∀ name : String, (name.toList.head?.any fun d => d.isDigit || d = '.') = false →
        String.ofList ((c :: cs).map Char.toLower) ≠ name := by
      rintro name hname rfl
      rw [String.toList_ofList, List.map_cons, List.head?_cons, any_some, hlower] at hname
      cases hname
    rw [magnitude?]
    simp only [hne "inf" (by decide), hne "infinity" (by decide), hne "nan" (by decide), decide_false,
      Bool.or_self, Bool.false_eq_true, if_false]
  rw [real?, numberChars_of_plain (by rw [String.toList_ofList]; exact hplain), String.toList_ofList]
  simp only [Option.bind_eq_bind, Option.bind_some, hsign, hnames, hq, map_some, Option.pure_def]

section

variable {whole : List Char} (hne : whole ≠ []) (hwhole : ∀ c ∈ whole, c.isDigit) {fraction : Option (List Char)}
  (hfraction : ∀ fs ∈ fraction, ∀ c ∈ fs, c.isDigit)

include hne hwhole hfraction

/-- Digits with a point and an exponent read as the number that they spell. -/
theorem scientific?_decimal (e : Option Int) : scientific? (whole ++ (fractionChars fraction ++ scaleChars e)) =
      some ⟨digitsValue (whole ++ fraction.getD []), e.getD 0 - (fraction.getD []).length⟩ := by
  have hsplit : splitDigits (whole ++ (fractionChars fraction ++ scaleChars e)) =
      (whole, fractionChars fraction ++ scaleChars e) :=
    digits_append_of_stop hwhole (head_fractionChars fraction e)
  have hempty : whole.isEmpty = false := List.isEmpty_eq_false_iff.mpr hne
  rw [scientific?, hsplit]
  cases fraction with
  | none =>
    have hpoint : splitFraction (scaleChars e) = ([], scaleChars e) := by
      unfold splitFraction
      split
      · next heq => exact absurd rfl (head_scaleChars e '.' (by rw [heq]; rfl)).2
      · rfl
    simp only [fractionChars, Option.map_none, Option.getD_none, List.nil_append, hpoint, hempty,
      Bool.false_and, Bool.false_eq_true, if_false, exponent?_scaleChars, map_some]
  | some fs =>
    have hfs : splitDigits (fs ++ scaleChars e) = (fs, scaleChars e) :=
      digits_append_of_stop (hfraction fs rfl) fun c hc => (head_scaleChars e c hc).1
    simp only [fractionChars, map_some, getD_some, List.cons_append, splitFraction, hfs,
      hempty, Bool.false_and, Bool.false_eq_true, if_false, exponent?_scaleChars]

/-- Digits with a point and an exponent are a number of the language. -/
theorem isNumber_decimal (e : Option Int) :
    isNumber (String.ofList (whole ++ (fractionChars fraction ++ scaleChars e))) := by
  have hsplit : digits (whole ++ (fractionChars fraction ++ scaleChars e)) =
      (whole, fractionChars fraction ++ scaleChars e) :=
    digits_append_of_stop hwhole (head_fractionChars fraction e)
  have hempty : whole.isEmpty = false := List.isEmpty_eq_false_iff.mpr hne
  have hpoint : Lexeme.fraction whole (fractionChars fraction ++ scaleChars e) =
      (fractionChars fraction, scaleChars e) := by
    cases fraction with
    | none =>
      show Lexeme.fraction whole (scaleChars e) = ([], scaleChars e)
      unfold Lexeme.fraction
      split
      · next heq => exact absurd rfl (head_scaleChars e '.' (by rw [heq]; rfl)).2
      · rfl
    | some fs =>
      have hfs := digits_append_of_stop (hfraction fs rfl) fun c hc => (head_scaleChars e c hc).1
      show Lexeme.fraction whole ('.' :: (fs ++ scaleChars e)) = ('.' :: fs, scaleChars e)
      rw [Lexeme.fraction, hfs]
      simp only [hempty, Bool.false_and, Bool.false_eq_true, if_false]
  rw [isNumber, String.toList_ofList, number?, hsplit]
  simp only [hpoint, hempty, Bool.false_and, Bool.false_eq_true, if_false, lexExponent_scaleChars]
  rfl

omit hne in
theorem isPlain_decimal (e : Option Int) : ∀ c ∈ whole ++ (fractionChars fraction ++ scaleChars e), isPlain c := by
  intro c hc
  rw [mem_append, mem_append] at hc
  rcases hc with hc | hc | hc
  · exact isPlain_of_isDigit (hwhole c hc)
  · cases fraction with
    | none => exact absurd hc (by simp [fractionChars])
    | some fs =>
      rcases List.mem_cons.mp hc with rfl | hc
      · decide
      · exact isPlain_of_isDigit (hfraction fs rfl c hc)
  · cases e with
    | none => exact absurd hc (by simp [scaleChars])
    | some e =>
      obtain ⟨ds, hchars, -, hall, -⟩ := exponentChars_eq e
      rw [scaleChars, map_some, getD_some, hchars] at hc
      rcases List.mem_cons.mp hc with rfl | hc
      · decide
      · rcases List.mem_cons.mp hc with rfl | hc
        · split <;> decide
        · exact isPlain_of_isDigit (hall c hc)

/-- The double that such a text stands for is the one nearest to the number that it spells. -/
theorem real?_decimal (e : Option Int) : real? (String.ofList (whole ++ (fractionChars fraction ++ scaleChars e))) =
      some (signed false (Scientific.bits
        ⟨digitsValue (whole ++ fraction.getD []), e.getD 0 - (fraction.getD []).length⟩)) := by
  have hscientific := scientific?_decimal hne hwhole hfraction e
  have hplain := isPlain_decimal hwhole hfraction e
  obtain ⟨c, cs, hcs⟩ : ∃ c cs, whole ++ (fractionChars fraction ++ scaleChars e) = c :: cs := by
    obtain ⟨c, cs, rfl⟩ := List.exists_cons_of_ne_nil hne
    exact ⟨c, _, rfl⟩
  have hc : c.isDigit := by
    obtain ⟨d, ds, rfl⟩ := List.exists_cons_of_ne_nil hne
    rw [← (List.cons.inj hcs).1]
    exact hwhole d mem_cons_self
  rw [hcs] at hscientific hplain ⊢
  exact real?_of_scientific? hplain (.inl hc) hscientific

end

/-! ## Numbers of the language -/

theorem splitSign_snd (cs : List Char) : (splitSign cs).2 = (sign cs).2 := by
  cases cs with
  | nil => rfl
  | cons c cs =>
    by_cases hminus : c = '-'
    · subst hminus
      rfl
    · by_cases hplus : c = '+'
      · subst hplus
        rfl
      · simp [splitSign, sign, hminus, hplus]

theorem exists_exponent? (h : (exponent cs).2 = []) : ∃ e, exponent? cs = some e := by
  cases cs with
  | nil => exact ⟨0, rfl⟩
  | cons c r =>
    unfold exponent at h
    unfold exponent?
    dsimp only at h ⊢
    by_cases hc : (decide (c = 'e') || decide (c = 'E'))
    · have hdigits : splitDigits (splitSign r).2 = digits (sign r).2 := by
        rw [splitSign_snd]
        rfl
      rw [if_pos hc] at h ⊢
      rw [hdigits]
      by_cases hds : (digits (sign r).2).1.isEmpty
      · rw [if_pos hds] at h
        cases h
      · rw [if_neg hds] at h
        dsimp only at h
        rw [h, if_neg (by simp [hds])]
        exact ⟨_, rfl⟩
    · rw [if_neg hc] at h
      cases h

theorem isPlain_of_mem_exponent : ∀ c ∈ (exponent cs).1, isPlain c := by
  have hsign : ∀ r, ∀ c ∈ (sign r).1, isPlain c := by
    intro r c hc
    unfold sign at hc
    split at hc
    · rw [List.mem_singleton.mp hc]
      decide
    · rw [List.mem_singleton.mp hc]
      decide
    · exact absurd hc not_mem_nil
  intro c hc
  unfold exponent at hc
  split at hc
  · next e r =>
    split at hc
    · next he =>
      dsimp only at hc
      split at hc
      · exact absurd hc not_mem_nil
      · rw [List.cons_append, List.mem_cons, mem_append] at hc
        rcases hc with rfl | hc | hc
        · rw [Bool.or_eq_true, decide_eq_true_eq, decide_eq_true_eq] at he
          rcases he with rfl | rfl <;> decide
        · exact hsign r c hc
        · exact isPlain_of_isDigit (all_digits _ c hc)
    · exact absurd hc not_mem_nil
  · exact absurd hc not_mem_nil

theorem isPlain_of_mem_fraction {whole : List Char} : ∀ c ∈ (Lexeme.fraction whole cs).1, isPlain c := by
  intro c hc
  unfold Lexeme.fraction at hc
  split at hc
  · dsimp only at hc
    split at hc
    · exact absurd hc not_mem_nil
    · rcases List.mem_cons.mp hc with rfl | hc
      · decide
      · exact isPlain_of_isDigit (all_digits _ c hc)
  · exact absurd hc not_mem_nil

theorem splitFraction_eq {whole : List Char} (h : (whole.isEmpty && (Lexeme.fraction whole cs).1.isEmpty) = false) :
    (whole.isEmpty && (splitFraction cs).1.isEmpty) = false ∧ (splitFraction cs).2 = (Lexeme.fraction whole cs).2 := by
  cases cs with
  | nil => exact ⟨h, rfl⟩
  | cons c cs =>
    by_cases hc : c = '.'
    · subst hc
      have hdigits : splitFraction ('.' :: cs) = digits cs := rfl
      have hfraction : Lexeme.fraction whole ('.' :: cs) =
          if whole.isEmpty && (digits cs).1.isEmpty then ([], '.' :: cs)
          else ('.' :: (digits cs).1, (digits cs).2) := rfl
      rw [hfraction] at h ⊢
      rw [hdigits]
      by_cases hempty : (whole.isEmpty && (digits cs).1.isEmpty)
      · rw [if_pos hempty] at h
        rw [Bool.and_eq_true] at hempty
        rw [hempty.1] at h
        cases h
      · rw [if_neg hempty]
        exact ⟨Bool.not_eq_true _ ▸ hempty, rfl⟩
    · have hfraction : splitFraction (c :: cs) = ([], c :: cs) := by
        unfold splitFraction
        split
        · next heq => exact absurd (List.cons.inj heq).1 hc
        · rfl
      have hfraction' : Lexeme.fraction whole (c :: cs) = ([], c :: cs) := by
        unfold Lexeme.fraction
        split
        · next heq => exact absurd (List.cons.inj heq).1 hc
        · rfl
      rw [hfraction'] at h ⊢
      rw [hfraction]
      exact ⟨h, rfl⟩

/-- What the language takes for a number has a value. -/
theorem exists_real? (h : isNumber s) : ∃ x, real? s = some x := by
  obtain ⟨c, cs, hcs, hc⟩ := Lexeme.isNumber_cons h
  rw [Bool.or_eq_true, decide_eq_true_eq] at hc
  unfold isNumber number? at h
  dsimp only at h
  split at h
  · cases h
  next hsome =>
  rw [any_some, List.isEmpty_iff] at h
  dsimp only at h
  have hcat : (digits s.toList).1 ++ ((Lexeme.fraction (digits s.toList).1 (digits s.toList).2).1 ++
      (exponent (Lexeme.fraction (digits s.toList).1 (digits s.toList).2).2).1) = s.toList := by
    have hexponent := Lexeme.exponent_append_snd (Lexeme.fraction (digits s.toList).1 (digits s.toList).2).2
    rw [h, List.append_nil] at hexponent
    rw [hexponent, Lexeme.fraction_append_snd, Lexeme.digits_append_snd]
  have hplain : ∀ d ∈ s.toList, isPlain d := by
    intro d hd
    rw [← hcat, mem_append, mem_append] at hd
    rcases hd with hd | hd | hd
    · exact isPlain_of_isDigit (all_digits _ d hd)
    · exact isPlain_of_mem_fraction d hd
    · exact isPlain_of_mem_exponent d hd
  have hscientific : ∃ q, scientific? s.toList = some q := by
    have hsplit : splitDigits s.toList = digits s.toList := rfl
    obtain ⟨hnot, hrest⟩ := splitFraction_eq (Bool.not_eq_true _ ▸ hsome)
    obtain ⟨e, he⟩ := exists_exponent? h
    unfold scientific?
    rw [hsplit]
    dsimp only
    rw [hnot, hrest, he]
    exact ⟨_, rfl⟩
  obtain ⟨q, hq⟩ := hscientific
  rw [hcs] at hq hplain
  have hreal := real?_of_scientific? hplain hc hq
  rw [← hcs, String.ofList_toList] at hreal
  exact ⟨_, hreal⟩

end QasmCircuit.Decimal
