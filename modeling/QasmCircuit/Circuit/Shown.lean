import QasmCircuit.Circuit.Store

/-!
# Circuits inside messages

The short texts by which messages refer to instructions and circuits.
-/

namespace QasmCircuit

open Text

def bracketed (texts : List String) : String := "[" ++ join ", " texts ++ "]"

/-- How a kind of instruction is called. -/
def Operation.title : Operation → String
  | .atomic _ => "AtomicGate"
  | .barrier => "Barrier"
  | .measure => "Measure"
  | .composite .. => "CompositeGate"

/-- The text of an instruction inside a message. -/
def Instruction.shown (x : Instruction) : String :=
  x.operation.title ++ "(" ++ quoted x.name ++ ", params=" ++ bracketed (x.params.map Decimal.text) ++
    ", args=" ++ bracketed (x.args.map Bit.shown) ++ ")"

/-- The text of a circuit inside a message. -/
def Circuit.shown (c : Circuit) : Except Fault String := do
  let registers ← c.registers.mapM Register.shown
  pure ("Circuit(" ++ c.name.shown ++ ", regs=" ++ bracketed registers ++ ", size=" ++ toString c.data.length ++ ")")

end QasmCircuit
