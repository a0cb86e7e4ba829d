import QasmCircuit.Fault

/-!
# Histograms of measured bits

The counts of the outcomes of a run, in the order in which the outcomes were first seen.
-/

namespace QasmCircuit

/-- Outcomes with their counts, each outcome once. -/
structure Histogram where
  counts : List (Datum × Datum) := []

namespace Histogram

/-- Sets the count of an outcome: a known outcome keeps its place. -/
def setIn (bits count : Datum) : List (Datum × Datum) → List (Datum × Datum)
  | [] => [(bits, count)]
  | (b, n) :: rest => if b.sameKey bits then (b, count) :: rest else (b, n) :: setIn bits count rest

/-- The histogram of a list of counts, of which the last one of an outcome counts. No outcome is a
collection. -/
def ofList (entries : List (Datum × Datum)) : Except Fault Histogram := do
  let counts ← entries.foldlM (fun acc (bits, count) =>
    match bits with
    | .list _ | .mapping _ => .error .wrongKind
    | _ => .ok (setIn bits count acc)) []
  pure ⟨counts⟩

/-- The sum of all counts. -/
def total (h : Histogram) : Except Fault Datum := h.counts.foldlM (fun n e => n.plus e.2) (.int 0)

/-- The share of every outcome, or nothing if the counts add up to zero. -/
def probabilities (h : Histogram) : Except Fault (List (Datum × Float)) := do
  let total ← h.total
  if total.sameKey (.int 0) then pure []
  else h.counts.mapM fun (bits, count) => do pure (bits, ← count.quotient total)

end Histogram

end QasmCircuit
