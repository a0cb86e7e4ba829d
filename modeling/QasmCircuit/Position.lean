/-!
# Places in a source text

Lines and columns count from one. What is built by hand rather than read from a text stands at the first
column of the first line.
-/

namespace QasmCircuit

/-- A line and a column of a source text. -/
structure Position where
  line : Int := 1
  col : Int := 1
deriving Repr, DecidableEq, Inhabited

/-- The place of everything that was not read from a text. -/
def Position.origin : Position := {}

/-- Whether line and column are both positive. -/
def Position.isValid (p : Position) : Bool := 1 ≤ p.line && 1 ≤ p.col

/-- The nearest place with a positive line and a positive column. -/
def Position.clamp (p : Position) : Position := ⟨max p.line 1, max p.col 1⟩

@[simp] theorem Position.clamp_isValid (p : Position) : p.clamp.isValid = true := by
  rw [Position.isValid, Bool.and_eq_true]
  exact ⟨decide_eq_true (Int.le_max_right _ _), decide_eq_true (Int.le_max_right _ _)⟩

/-- A line or a column as a caller may give it. -/
inductive Coordinate where
  | whole (n : Int)
  | truth (b : Bool)
  | real (x : Float)
deriving Repr, DecidableEq

/-- Whether a line or a column is too small. Truth values count as zero and one. -/
def Coordinate.isBelowOne : Coordinate → Bool
  | .whole n => n < 1
  | .truth b => !b
  | .real x => x < 1.0

end QasmCircuit
