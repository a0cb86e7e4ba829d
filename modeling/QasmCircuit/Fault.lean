import QasmCircuit.Datum
import QasmCircuit.Decimal.Literal
import QasmCircuit.Problem
import QasmCircuit.Sequence

/-!
# Faults

An operation that fails gives a `Fault`: a located `Problem`, a `Defect` of a value it was given, or one
of the ways in which data can lack what an operation asks of it.

Recursion goes as deep as the data does: the stack is taken to be unbounded, and nothing fails for being nested
deeply. `Fault.selfContaining` is for gates inside themselves, where recursion would not end.

> `Fault.located_of_isValid`: a problem at a valid place stays that problem.
-/

namespace QasmCircuit

/-- What makes a value unfit for an operation. -/
inductive Defect where
  | errorCode
  | errorPlace
  | errorCategory (category : Category)
  | notStart
  | notReal (text : String)
  | notInteger (text : String)
  | mathDomain
  | libraryNotMapping
  | libraryFile (path : String)
  | noFamilies
  | inverseUnknown (gate inverse : String)
  | inverseSignature (gate inverse : String)
  | controlledUnknown (gate controlled : String)
  | controlledSignature (controlled gate : String)
  | entryKind (gate : String)
  | paramsKind (gate : String)
  | arityKind (gate : String)
  | controlledKind (gate : String)
  | inverseKind (gate : String)
  | inverseNameKind (gate : String)
  | inverseParams (gate : String)
  | templateKind (gate shown : String)
  | templateName (gate name : String)
  | noDigits (base : Nat)
  | noCharacter
  | outOfRange (what : OutOfRange)
  | notListed (shown : String)
  | tooFewItems (count : Nat)
  | tooManyItems
  | entryLength (index count : Nat)
  | productSizes (rows cols : Nat)
  | qubitCount (size qubits : Nat)
  | unevenRows (rows : Nat)
  | blockShape (rows cols : Nat)
  | repeatedAxis
  | shapes (rows cols : Nat)
  | dimension
  | tooManyEntries
  | tooManyAxes (count : Nat)
  | tooManyDigits
deriving Repr, DecidableEq

/-- How many characters of a text that is no integer are shown, its first quote mark among them. -/
def Defect.shownLimit : Nat := 200

/-- How many axes an operator may have. -/
def Defect.axisLimit : Nat := 64

def Defect.message : Defect → String
  | .errorCode => "Error codes must follow the `E###` pattern."
  | .errorPlace => "Source locations are one-based; line and column must be positive integers."
  | .errorCategory category =>
    category.title ++ " must use an error code starting with '" ++ category.codeStart ++ "'."
  | .notStart => "Transformation requires the `start` rule as entry point."
  | .notReal text => "could not convert string to float: " ++ Text.quoted text
  | .notInteger text => "invalid literal for int() with base 10: " ++
    String.ofList ((Text.quoted text).toList.take Defect.shownLimit)
  | .mathDomain => "math domain error"
  | .libraryNotMapping => "Gate library must contain a mapping at the top level."
  | .libraryFile path => s!"Gate library file '{path}' must contain a mapping at the top level."
  | .noFamilies => "Gate library must provide a non-empty 'families' mapping."
  | .inverseUnknown gate inverse => s!"gate '{gate}' inverts to unknown gate '{inverse}'"
  | .inverseSignature gate inverse => s!"gate '{gate}' and its inverse '{inverse}' have different signatures"
  | .controlledUnknown gate controlled => s!"gate '{gate}' is controlled by unknown gate '{controlled}'"
  | .controlledSignature controlled gate => s!"gate '{controlled}' is not '{gate}' with one more qubit"
  | .entryKind gate => s!"gate '{gate}' entry must be a mapping"
  | .paramsKind gate => s!"gate '{gate}' params must be a list of names"
  | .arityKind gate => s!"gate '{gate}' must declare a positive integer arity"
  | .controlledKind gate => s!"gate '{gate}' controlled form must be a gate name"
  | .inverseKind gate => s!"gate '{gate}' inverse must be 'self' or a mapping"
  | .inverseNameKind gate => s!"gate '{gate}' inverse name must be a string"
  | .inverseParams gate => s!"gate '{gate}' inverse params must list one template per parameter"
  | .templateKind gate shown => s!"gate '{gate}' inverse template {shown} must be a string"
  | .templateName gate name => s!"gate '{gate}' inverse template references unknown parameter '{name}'"
  | .noCharacter => "chr() arg not in range(0x110000)"
  | .outOfRange what => what.message
  | .noDigits base => s!"invalid literal for int() with base {base}: ''"
  | .tooFewItems count => s!"not enough values to unpack (expected 2, got {count})"
  | .tooManyItems => "too many values to unpack (expected 2)"
  | .entryLength index count =>
    s!"dictionary update sequence element #{index} has length {count}; 2 is required"
  | .notListed shown => shown ++ " is not in list"
  | .productSizes rows cols =>
    "matmul: Input operand 1 has a mismatch in its core dimension 0, with gufunc signature " ++
      s!"(n?,k),(k,m?)->(n?,m?) (size {rows} is different from {cols})"
  | .qubitCount size qubits =>
    let shape := Text.join "," (List.replicate (2 * qubits) "2")
    s!"cannot reshape array of size {size} into shape ({shape})"
  | .unevenRows rows =>
    "setting an array element with a sequence. The requested array has an inhomogeneous shape after 1 " ++
      s!"dimensions. The detected shape was ({rows},) + inhomogeneous part."
  | .blockShape rows cols =>
    s!"could not broadcast input array from shape ({rows},{cols}) into shape ({rows},{rows})"
  | .repeatedAxis => "repeated axis in transpose"
  | .shapes rows cols =>
    s!"operands could not be broadcast together with shapes ({rows},{cols}) ({rows},{rows}) "
  | .dimension => "Maximum allowed dimension exceeded"
  | .tooManyEntries =>
    "array is too big; `arr.size * arr.dtype.itemsize` is larger than the maximum possible size."
  | .tooManyAxes count => s!"maximum supported dimension for an ndarray is {Defect.axisLimit}, found {count}"
  | .tooManyDigits => s!"Exceeds the limit ({Text.digitLimit} digits) for integer string conversion; " ++
    "use sys.set_int_max_str_digits() to increase the limit"

/-- Why an operation failed. -/
inductive Fault where
  /-- A problem, its place, and the code of the problem behind it. -/
  | problem (problem : Problem) (position : Position) (cause : Option String)
  /-- A problem at a place that is not given by two integers, and the code of the problem behind it. -/
  | misplaced (problem : Problem) (line col : Coordinate) (cause : Option String)
  /-- A value is unfit for the operation. -/
  | defect (defect : Defect)
  /-- A name is not in a table. -/
  | missingName
  /-- A list is too short. -/
  | missingItem
  /-- A value lacks a part that the operation needs. -/
  | missingPart
  /-- A value is of the wrong kind. -/
  | wrongKind
  /-- An integer is too large for a double, or for the length of a list. -/
  | tooLarge
  /-- A data file cannot be read as data. -/
  | malformedFile
  /-- An operator has no such axis. -/
  | missingAxis
  /-- There is no room for a matrix. -/
  | noRoom
  /-- A gate contains itself. -/
  | selfContaining
deriving Repr, DecidableEq

namespace Fault

/-- A problem at a place, which has to be a valid one. -/
def located (problem : Problem) (position : Position) : Fault :=
  if position.isValid then .problem problem position problem.cause? else .defect .errorPlace

theorem located_of_isValid (problem : Problem) (position : Position) (h : position.isValid = true) :
    located problem position = .problem problem position problem.cause? := by
  simp [located, h]

/-- A problem at a place that a caller gives, which has to be a valid one. -/
def placed (problem : Problem) (line col : Coordinate) : Fault :=
  if line.isBelowOne || col.isBelowOne then .defect .errorPlace
  else match line, col with
    | .whole l, .whole c => .problem problem ⟨l, c⟩ problem.cause?
    | _, _ => .misplaced problem line col problem.cause?

def causedBy (code : String) : Fault → Fault
  | .problem what p _ => .problem what p (some code)
  | .misplaced what line col _ => .misplaced what line col (some code)
  | fault => fault

/-- A problem that has no place in a source text. -/
def of (problem : Problem) : Fault := .problem problem .origin problem.cause?

/-- Moves a problem without a place to a place in the source text; the problem itself becomes the cause. -/
def relocate (position : Position) : Fault → Fault
  | .problem what p cause =>
    if p = .origin then
      if position.isValid then .problem what position (some what.code) else .defect .errorPlace
    else .problem what p cause
  | fault => fault

end Fault

/-- A failed step in a computation with faults. -/
def fail {m : Type → Type} {α : Type} [MonadExceptOf Fault m] (problem : Problem) : m α :=
  throw (Fault.of problem)

/-- A failed step at a place in the source text. -/
def failAt {m : Type → Type} {α : Type} [MonadExceptOf Fault m] (problem : Problem) (position : Position) : m α :=
  throw (Fault.located problem position)

namespace Text

/-- A text, if the integers that stand in it can be written. -/
def showing (short : Bool) (text : String) : Except Fault String :=
  if short then .ok text else .error (.defect .tooManyDigits)

end Text

namespace Datum

/-- The double that a value stands for: truth values count as zero and one, and a text is read. -/
def toReal : Datum → Except Fault Float
  | .bool b => .ok (if b then 1.0 else 0.0)
  | .int n => match Decimal.ofInt? n with
    | some x => .ok x
    | none => .error .tooLarge
  | .real x => .ok x
  | .text s => match Decimal.real? s with
    | some x => .ok x
    | none => .error (.defect (.notReal s))
  | _ => .error .wrongKind

/-- The line or the column that a value gives; only numbers do. -/
def coordinate : Datum → Except Fault Coordinate
  | .int n => .ok (.whole n)
  | .bool b => .ok (.truth b)
  | .real x => .ok (.real x)
  | _ => .error .wrongKind

/-- The sum of two values: integers are added exactly, and texts and lists are joined. -/
def plus (a b : Datum) : Except Fault Datum := do
  match a, b with
  | .text x, .text y => pure (.text (x ++ y))
  | .list xs, .list ys => pure (.list (xs ++ ys))
  | _, _ => match a.number?, b.number? with
    | some (.inl m), some (.inl n) => pure (.int (m + n))
    | some _, some _ => do pure (.real ((← a.toReal) + (← b.toReal)))
    | _, _ => throw .wrongKind

/-- The quotient of two numbers, of which the second one is not zero. -/
def quotient (a b : Datum) : Except Fault Float := do
  match a.number?, b.number? with
  | some (.inl m), some (.inl n) => match Decimal.ofQuotient? m n with
    | some x => pure x
    | none => throw .tooLarge
  | some _, some _ => do pure ((← a.toReal) / (← b.toReal))
  | _, _ => throw .wrongKind

/-- The member of a list at the index that a value gives. -/
def pick {α : Type} (values : List α) (index : Datum) : Except Fault α :=
  match index.number? with
  | some (.inl n) => match Sequence.pick? values n with
    | some x => .ok x
    | none => .error .missingItem
  | _ => .error .wrongKind

/-- The member of a value: an item of a list, a character of a text, or the value under a key of a mapping. -/
def member (d index : Datum) : Except Fault Datum :=
  match d, index with
  | .text s, index => pick (s.toList.map fun c => .text (String.singleton c)) index
  | .list items, index => pick items index
  | .mapping _, .list _ | .mapping _, .mapping _ => .error .wrongKind
  | .mapping entries, key => match entries.find? fun e => sameKey e.1 key with
    | some e => .ok e.2
    | none => .error .missingName
  | _, _ => .error .wrongKind

end Datum

end QasmCircuit
