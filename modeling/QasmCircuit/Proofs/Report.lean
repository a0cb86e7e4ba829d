import QasmCircuit.Proofs.Circuit.Step

/-!
# Failures that are reported

A fault is a located problem or a defect of a call. A property says with which faults a computation fails
(`Outcome.Fails`). A computation reports its failures if it fails with problems only (`Outcome.Reports`).
-/

namespace QasmCircuit

/-- A located problem that satisfies `P`. -/
def Fault.IsProblem (P : Problem → Prop) (e : Fault) : Prop :=
  ∃ what position cause, e = .problem what position cause ∧ P what

namespace Outcome

variable {α β : Type} {E : Fault → Prop} {P : Problem → Prop} {x : Except Fault α} {f : α → Except Fault β}

/-- A computation fails with faults that satisfy `E` only. -/
def Fails (E : Fault → Prop) (x : Except Fault α) : Prop := ∀ e, x = .error e → E e

theorem fails_ok {a : α} : Fails E (.ok a) := by
  intro e he
  cases he

theorem fails_error {e : Fault} (h : E e) : Fails E (.error e : Except Fault α) := by
  intro e' he
  cases he
  exact h

theorem Fails.bind (hx : Fails E x) (hf : ∀ a, x = .ok a → Fails E (f a)) : Fails E (x >>= f) := by
  cases hcase : x with
  | error e => exact fails_error (hx e hcase)
  | ok a => exact hf a hcase

theorem fails_mapM {as : List α} (hf : ∀ a ∈ as, Fails E (f a)) : Fails E (as.mapM f) := by
  intro e he
  obtain ⟨a, ha, hfa⟩ := exists_of_mapM_eq_error he
  exact hf a ha e hfa

/-- A computation fails with located problems only, and these satisfy `P`. -/
abbrev Reports (P : Problem → Prop) (x : Except Fault α) : Prop := Fails (Fault.IsProblem P) x

end Outcome

end QasmCircuit
