import QasmCircuit.Program.Render
import QasmCircuit.Proofs.Expr.ReadBack
import QasmCircuit.Proofs.Expr.Real

/-!
# Parameters that read back

The text of a finite double is an expression: a number, with a minus sign in front of a negative one. Whoever reads it
gets the double back, so that no two doubles share a text but for the two zeros.

> `Term.paramText_reads_back`: the text of a parameter is read as a number with the value of the parameter.
-/

namespace QasmCircuit

open Decimal

/-- The only doubles that compare as equal to zero are the two zeros. -/
theorem Decimal.eq_zero_of_beq {x : Float} (h : (x == 0.0)) : x = 0.0 ∨ x = -0.0 := by
  have hfinite := (isFinite_iff x).mp (isFinite_of_beq_zero h)
  rcases Nat.eq_zero_or_pos (magnitudeBits x) with hzero | hpos
  · rw [eq_signed hfinite.le, hzero]
    cases isNegative x with
    | false => exact Or.inl rfl
    | true => exact Or.inr rfl
  · have hbeq : (x == 0.0) = (x.toModel.unpack.compare (.zero .positive) == some .eq) := rfl
    rw [hbeq, unpack_eq, unpack_word hpos hfinite] at h
    cases hsign : isNegative x <;> rw [hsign] at h <;> exact absurd h Bool.false_ne_true

theorem Decimal.plain_eq (x : Float) : plain x = if x = -0.0 then 0.0 else x := by
  unfold plain
  split
  · next h =>
    rcases eq_zero_of_beq h with rfl | rfl
    · split <;> rfl
    · rw [if_pos rfl]
  · next h =>
    rw [if_neg]
    rintro rfl
    exact h rfl

namespace Expr

/-- The expressions that stand for plain numbers: a number, or a minus sign in front of one. -/
def IsLiteral (e : Expr) : Prop := ∃ p q text, e = .number p text ∨ e = .neg p (.number q text)

theorem isLiteral_of_unplaced {x : Float} {e : Expr} (h : e.unplaced = ofReal x) : e.IsLiteral := by
  unfold ofReal at h
  dsimp only at h
  split at h
  · obtain ⟨p, inner, rfl, hinner⟩ := unplaced_eq_neg h
    obtain ⟨q, rfl⟩ := unplaced_eq_number hinner
    exact ⟨p, q, _, Or.inr rfl⟩
  · obtain ⟨p, rfl⟩ := unplaced_eq_number h
    exact ⟨p, p, _, Or.inl rfl⟩

end Expr

/-- A text in front of a comma or of a closing parenthesis is read as a plain number with a value. -/
def ReadsAs (s : String) (x : Float) : Prop :=
  ∀ (ch : Char) (symbol : Symbol) (rest : List Char) (c : Cursor), Source.Reader.IsEnding ch symbol →
    c.rest = s.toList ++ ch :: rest → ∃ e p c',
      Source.Reader.expression c = .ok ((e, ⟨.symbol symbol, String.ofList [ch], p⟩), c') ∧ c'.rest = rest ∧
        e.IsLiteral ∧ ∀ env, e.toTree.evaluate env = .ok x

/-- A text is read in one way only. -/
theorem ReadsAs.unique {s : String} {x y : Float} (hx : ReadsAs s x) (hy : ReadsAs s y) : x = y := by
  have hending : Source.Reader.IsEnding ',' .comma := Or.inl ⟨rfl, rfl⟩
  obtain ⟨e, p, c', hread, -, -, hvalue⟩ := hx ',' .comma [] (Cursor.ofText (s ++ ",")) hending
    (by simp [Cursor.ofText])
  obtain ⟨e', p', c'', hread', -, -, hvalue'⟩ := hy ',' .comma [] (Cursor.ofText (s ++ ",")) hending
    (by simp [Cursor.ofText])
  rw [hread] at hread'
  cases hread'
  exact Except.ok.inj ((hvalue []).symm.trans (hvalue' []))

namespace Term

theorem paramText_real {x : Float} (hx : x.isFinite) :
    paramText (.value (.real x)) = .ok (Expr.ofReal (plain x)).text := by
  rw [Expr.text_ofReal ((isFinite_plain x).trans hx)]
  exact if_pos hx

theorem readsAs_ofReal {x : Float} (hx : x.isFinite) : ReadsAs (Expr.ofReal x).text x := by
  intro ch symbol rest c hch hc
  obtain ⟨e, p, c', hread, hrest, he⟩ := Source.Reader.expression_of_spelled (Expr.spelled_ofReal hx) hch hc
  rw [Expr.unplaced_ofReal] at he
  exact ⟨e, p, c', hread, hrest, Expr.isLiteral_of_unplaced he, Expr.evaluate_ofReal hx he⟩

/-- The text of a finite double is read as a number, or as a minus sign in front of one, with exactly this value, but
for the negative zero, which is written as zero. So different doubles have different texts, but for the two zeros. -/
theorem paramText_reads_back : (∀ x : Float, x.isFinite = true → ∃ s, paramText (.value (.real x)) = .ok s ∧
      ReadsAs s (if x = -0.0 then 0.0 else x)) ∧ ∀ x y : Float, x.isFinite = true → y.isFinite = true →
      paramText (.value (.real x)) = paramText (.value (.real y)) → x = y ∨ (x == 0.0 && y == 0.0) = true := by
  have hreads : ∀ x : Float, x.isFinite = true → ReadsAs (Expr.ofReal (plain x)).text (plain x) :=
    fun x hx => readsAs_ofReal ((isFinite_plain x).trans hx)
  refine ⟨fun x hx => ⟨_, paramText_real hx, plain_eq x ▸ hreads x hx⟩, fun x y hx hy h => ?_⟩
  rw [paramText_real hx, paramText_real hy, Except.ok.injEq] at h
  have hplain : plain x = plain y := (hreads x hx).unique (h ▸ hreads y hy)
  unfold plain at hplain
  split at hplain
  · next hzero =>
    split at hplain
    · next hzero' => exact Or.inr (by rw [hzero, hzero']; rfl)
    · exact Or.inr (by rw [hzero, ← hplain]; rfl)
  · split at hplain
    · next hzero' => exact Or.inr (by rw [hplain, hzero']; rfl)
    · exact Or.inl hplain

/-- The two zeros have one text, which is read as zero. -/
theorem paramText_reads_back_zeros : (∃ s, paramText (.value (.real (-0.0))) = .ok s ∧ ReadsAs s 0.0) ∧
    ((0.0 : Float) = -0.0 ∨ ((0.0 : Float) == 0.0 && (-0.0 : Float) == 0.0) = true) := by
  refine ⟨?_, paramText_reads_back.2 0.0 (-0.0) (by decide +kernel) (by decide +kernel) (by decide +kernel)⟩
  obtain ⟨s, hs, hreads⟩ := paramText_reads_back.1 (-0.0) (by decide +kernel)
  rw [if_pos rfl] at hreads
  exact ⟨s, hs, hreads⟩

end Term

end QasmCircuit
