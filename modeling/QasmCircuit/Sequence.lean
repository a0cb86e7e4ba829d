/-!
# Members of a sequence

An index counts from the front, and a negative one from the end.

> `Sequence.pick?_ofNat`: an index that is not negative counts from the front.
-/

namespace QasmCircuit.Sequence

variable {α : Type}

def pick? (values : List α) (index : Int) : Option α :=
  let i := if index < 0 then index + values.length else index
  if i < 0 then none else values[i.toNat]?

theorem pick?_ofNat (values : List α) (n : Nat) : pick? values n = values[n]? := by
  have front : ¬ (n : Int) < 0 := by omega
  simp only [pick?, if_neg front, Int.toNat_natCast]

end QasmCircuit.Sequence
