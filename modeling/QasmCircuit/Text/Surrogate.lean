/-!
# Unpaired surrogates

A code from D800 to DFFF is half of a pair and no character of its own, but an escape can name one without
the other half. A text keeps it as two characters: a mark that stands for no character in any text, and the
private character with the rank of the half. The mark itself is written twice.
-/

namespace QasmCircuit.Text

/-- Whether a code is half of a pair. -/
def isSurrogate (code : Nat) : Bool := 0xD800 ≤ code && code < 0xE000

/-- A character, or half of a pair. -/
inductive Symbol where
  | char (c : Char)
  | half (code : Nat)
deriving Repr, DecidableEq

/-- The character that announces half of a pair. -/
def surrogateMark : Char := Char.ofNat 0xFFFFE

/-- How far the private characters are behind the halves that they stand for. -/
def surrogateShift : Nat := 0x800

/-- The private character for half of a pair. -/
def ofSurrogate (code : Nat) : Char := Char.ofNat (code + surrogateShift)

/-- The half of a pair that a character behind a mark stands for. -/
def surrogateCode? (c : Char) : Option Nat :=
  if surrogateShift ≤ c.toNat && isSurrogate (c.toNat - surrogateShift) then some (c.toNat - surrogateShift) else none

/-- The characters that a symbol is kept as. -/
def Symbol.written : Symbol → List Char
  | .char c => if c = surrogateMark then [c, c] else [c]
  | .half code => [surrogateMark, ofSurrogate code]

/-- The symbols of a text. A mark with nothing to announce is a character like any other. -/
def symbols : List Char → List Symbol
  | [] => []
  | [c] => [.char c]
  | c :: next :: rest =>
    if c = surrogateMark then
      if next = surrogateMark then .char c :: symbols rest
      else match surrogateCode? next with
        | some code => .half code :: symbols rest
        | none => .char c :: symbols (next :: rest)
    else .char c :: symbols (next :: rest)

/-- Whether a text holds half of a pair. -/
def hasSurrogate (s : String) : Bool :=
  (symbols s.toList).any fun
    | .half _ => true
    | .char _ => false

/-- A text whose marks are characters like any other. -/
def withMarks (cs : List Char) : List Char := cs.flatMap fun c => (Symbol.char c).written

end QasmCircuit.Text
