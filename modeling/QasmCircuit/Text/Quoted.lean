import QasmCircuit.Text.Printable
import QasmCircuit.Text.Surrogate

/-!
# Quoted texts

A text inside a message stands in single quotes, or in double quotes if it has a single quote and no
double quote. The chosen quote and the backslash are escaped, and characters that cannot be shown are
written by their code points.
-/

namespace QasmCircuit.Text

/-- The lower-case hexadecimal digit of a value below sixteen. -/
def hexDigit (n : Nat) : Char :=
  if n < 10 then Char.ofNat (48 + n) else Char.ofNat (87 + n)

/-- The last `width` hexadecimal digits of a number. -/
def hexPadded : Nat → Nat → List Char
  | 0, _ => []
  | width + 1, n => hexPadded width (n / 16) ++ [hexDigit (n % 16)]

/-- How one character is written between quotes of the kind `quote`. -/
def escape (quote c : Char) : List Char :=
  if c = quote || c = '\\' then ['\\', c]
  else if c = '\n' then ['\\', 'n']
  else if c = '\r' then ['\\', 'r']
  else if c = '\t' then ['\\', 't']
  else if isPrintable c then [c]
  else if c.toNat < 0x100 then '\\' :: 'x' :: hexPadded 2 c.toNat
  else if c.toNat < 0x10000 then '\\' :: 'u' :: hexPadded 4 c.toNat
  else '\\' :: 'U' :: hexPadded 8 c.toNat

/-- How a symbol is written between quotes of the kind `quote`. -/
def escapeSymbol (quote : Char) : Symbol → List Char
  | .char c => escape quote c
  | .half code => '\\' :: 'u' :: hexPadded 4 code

def quoteFor (cs : List Char) : Char :=
  if cs.contains '\'' && !cs.contains '"' then '"' else '\''

/-- A text in quotes, with everything escaped that could not stand there. -/
def quoted (s : String) : String :=
  let cs := s.toList
  let q := quoteFor cs
  String.ofList (q :: (symbols cs).flatMap (escapeSymbol q) ++ [q])

end QasmCircuit.Text
