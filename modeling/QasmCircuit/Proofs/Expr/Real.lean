import QasmCircuit.Proofs.Decimal.Double
import QasmCircuit.Proofs.Decimal.Shortest
import QasmCircuit.Proofs.Expr.Printing

/-!
# Doubles as expressions

A finite double is written as an expression: a number, with a minus sign in front of a negative one. The
value of this expression is the double itself (`Expr.evaluate_ofReal`), so nothing is lost by writing a
parameter down but the sign of a zero, which the text of a parameter leaves out (`Decimal.plain`).
-/

namespace QasmCircuit

namespace Decimal

/-- A double with the negative zero read as zero. -/
def plain (x : Float) : Float := if x == 0.0 then 0.0 else x

theorem isFinite_of_beq_zero {x : Float} (h : (x == 0.0)) : x.isFinite := by
  have hbeq : (x == 0.0) = (x.toModel.unpack.compare (.zero .positive) == some .eq) := rfl
  have hfinite : x.isFinite = x.toModel.unpack.isFinite := rfl
  rw [hbeq] at h
  rw [hfinite]
  cases hx : x.toModel.unpack with
  | notANumber => rw [hx] at h; exact absurd h Bool.false_ne_true
  | infinity s =>
    rw [hx] at h
    cases s <;> exact absurd h Bool.false_ne_true
  | _ => rfl

@[simp] theorem plain_plain (x : Float) : plain (plain x) = plain x := by
  by_cases h : (x == 0.0)
  · rw [plain, plain, if_pos h]
    rfl
  · rw [plain, plain, if_neg h, if_neg h]

theorem isFinite_plain (x : Float) : (plain x).isFinite = x.isFinite := by
  unfold plain
  split
  · next h =>
    rw [isFinite_of_beq_zero h]
    rfl
  · rfl

end Decimal

namespace Expr

open Decimal

/-- The expression of a double: a number, with a minus sign if there is one. -/
def ofReal (x : Float) : Expr :=
  let number := Expr.number .origin (String.ofList (magnitudeChars (magnitudeBits x)))
  if isNegative x then .neg .origin number else number

theorem unplaced_ofReal (x : Float) : (ofReal x).unplaced = ofReal x := by
  unfold ofReal
  dsimp only
  split <;> rfl

theorem unplaced_eq_number {e : Expr} {text : String} (h : e.unplaced = .number .origin text) :
    ∃ p, e = .number p text := by
  cases e <;> cases h
  exact ⟨_, rfl⟩

theorem unplaced_eq_neg {e operand : Expr} (h : e.unplaced = .neg .origin operand) :
    ∃ p inner, e = .neg p inner ∧ inner.unplaced = operand := by
  cases e <;> cases h
  exact ⟨_, _, rfl, rfl⟩

section

variable {x : Float} (hx : x.isFinite)

include hx

theorem spelled_ofReal : (ofReal x).Spelled := by
  have hnumber := (spells_magnitudeChars ((isFinite_iff x).mp hx)).isNumber
  unfold ofReal
  dsimp only
  split
  · exact hnumber
  · exact hnumber

theorem text_ofReal : (ofReal x).text = Decimal.text x := by
  have hfinite := (isFinite_iff x).mp hx
  unfold ofReal Decimal.text
  dsimp only
  by_cases hsign : isNegative x
  · rw [if_pos hsign, if_pos (by rw [hsign, Bool.true_and, decide_eq_true_eq]; exact hfinite.le)]
    show "-" ++ String.ofList _ = _
    simp only [← String.toList_inj, String.toList_append, String.toList_ofList]
    rfl
  · rw [if_neg hsign, if_neg (by rw [Bool.eq_false_iff.mpr hsign, Bool.false_and]; exact Bool.false_ne_true)]
    rfl

/-- Wherever it stands, the number without its sign has its value. -/
theorem evaluate_magnitude (env : Tree.Env) (p : Position) :
    (Expr.number p (String.ofList (magnitudeChars (magnitudeBits x)))).toTree.evaluate env =
      .ok (signed false (magnitudeBits x)) := by
  have hreal := (spells_magnitudeChars ((isFinite_iff x).mp hx)).real?_eq
  unfold toTree Tree.evaluate
  simp only [show Tree.Shape.ofLabel "number" = .number from rfl]
  unfold Tree.numberValue Tree.leaf
  simp only [hreal]

/-- Wherever it stands, the expression of a double has the double as its value. -/
theorem evaluate_ofReal {e : Expr} (he : e.unplaced = ofReal x) (env : Tree.Env) : e.toTree.evaluate env = .ok x := by
  have hle : magnitudeBits x ≤ infinityBits := ((isFinite_iff x).mp hx).le
  have hsigned := eq_signed hle
  unfold ofReal at he
  dsimp only at he
  by_cases hsign : isNegative x
  · rw [if_pos hsign] at he
    rw [hsign] at hsigned
    obtain ⟨p, inner, rfl, hinner⟩ := unplaced_eq_neg he
    obtain ⟨q, rfl⟩ := unplaced_eq_number hinner
    unfold toTree Tree.evaluate
    simp only [show Tree.Shape.ofLabel "neg" = .negation from rfl, evaluate_magnitude hx]
    show Except.ok (-signed false (magnitudeBits x)) = _
    rw [neg_signed hle]
    exact congrArg Except.ok hsigned.symm
  · rw [if_neg hsign] at he
    rw [Bool.eq_false_iff.mpr hsign] at hsigned
    obtain ⟨p, rfl⟩ := unplaced_eq_number he
    rw [evaluate_magnitude hx, ← hsigned]

omit hx in
theorem names_ofReal {e : Expr} (he : e.unplaced = ofReal x) : e.toTree.names = [] := by
  unfold ofReal at he
  dsimp only at he
  split at he
  · obtain ⟨p, inner, rfl, hinner⟩ := unplaced_eq_neg he
    obtain ⟨q, rfl⟩ := unplaced_eq_number hinner
    rfl
  · obtain ⟨p, rfl⟩ := unplaced_eq_number he
    rfl

end

end Expr

end QasmCircuit
