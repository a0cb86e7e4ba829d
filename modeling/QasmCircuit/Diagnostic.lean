import QasmCircuit.Fault

/-!
# Diagnostics

A diagnostic carries a code, a message and a place of the caller's choice. It is only made if the code is
the letter E with three digits, the place is valid, and the code belongs to the category, in this order. The
message and the numbers of the place may be any values that can be compared.
-/

namespace QasmCircuit

/-- A report of any origin. -/
structure Diagnostic where
  code : String
  message : Datum
  line : Datum := .int 1
  col : Datum := .int 1

namespace Diagnostic

/-- Which codes a diagnostic may have. -/
inductive Scope where
  | any
  | category (category : Category)
  /-- A category that has not been named, to which no code belongs. -/
  | unnamed
deriving Repr, DecidableEq

/-- Whether a text is the letter E with three decimal digits, and at most a line feed behind them. -/
def isCode (code : String) : Bool :=
  match code.toList with
  | ['E', a, b, c] => [a, b, c].all fun d => (Text.digitValue d).isSome
  | ['E', a, b, c, '\n'] => [a, b, c].all fun d => (Text.digitValue d).isSome
  | _ => false

def belongs (code : String) (category : Category) : Bool :=
  code.toList.take 3 == category.codeStart.toList

def checkPlace (line col : Datum) : Except Fault Unit := do
  if (← line.coordinate).isBelowOne then throw (.defect .errorPlace)
  if (← col.coordinate).isBelowOne then throw (.defect .errorPlace)

/-- Checks that a code is in the scope of a diagnostic. -/
def checkScope (code : String) : Scope → Except Fault Unit
  | .any => .ok ()
  | .category c => if belongs code c then .ok () else .error (.defect (.errorCategory c))
  | .unnamed => .error .missingPart

/-- Makes a diagnostic from a code, a message and possibly a line and a column. -/
def make (scope : Scope) : List Datum → Except Fault Diagnostic
  | [code, message] => create code message (.int 1) (.int 1)
  | [code, message, line] => create code message line (.int 1)
  | [code, message, line, col] => create code message line col
  | _ => .error .wrongKind
where
  /-- Makes a diagnostic from all of its parts. -/
  create (code message line col : Datum) : Except Fault Diagnostic :=
    match code with
    | .text s => do
      if !isCode s then throw (.defect .errorCode)
      checkPlace line col
      checkScope s scope
      pure ⟨s, message, line, col⟩
    | _ => .error .wrongKind

def text (d : Diagnostic) : String :=
  d.code ++ " (line " ++ d.line.asName ++ ", col " ++ d.col.asName ++ "): " ++ d.message.asName

end Diagnostic

end QasmCircuit
