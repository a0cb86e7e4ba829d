/-!
# Points in a data file

A `Point` is a place in a text together with what follows there. Lines end as the Unicode standard has
it, and a byte order mark takes no column.
-/

namespace QasmCircuit.Yaml

/-- The characters that end a line. -/
def isBreak (c : Char) : Bool :=
  c == '\n' || c == '\r' || c == '\x85' || c == '\u2028' || c == '\u2029'

/-- The characters between tokens. -/
def isGap (c : Char) : Bool := c == ' ' || c == '\t' || isBreak c

/-- Whether a text is at its end or goes on with white space. -/
def atGap : List Char → Bool
  | [] => true
  | c :: _ => isGap c

/-- A place in a text. -/
structure Point where
  rest : List Char
  index : Nat := 0
  line : Nat := 0
  column : Nat := 0

namespace Point

def advance (p : Point) : Point :=
  match p.rest with
  | [] => p
  | c :: rest =>
    if isBreak c && !(c == '\r' && rest.head? == some '\n') then ⟨rest, p.index + 1, p.line + 1, 0⟩
    else ⟨rest, p.index + 1, p.line, if c == '\ufeff' then p.column else p.column + 1⟩

def advanceBy : Nat → Point → Point
  | 0, p => p
  | n + 1, p => advanceBy n p.advance

/-- The characters in front that pass a test, and the point behind them. -/
def span (test : Char → Bool) (p : Point) : List Char × Point :=
  let cs := p.rest.takeWhile test
  (cs, p.advanceBy cs.length)

/-- The line break at a point, and the point behind it. All but the two Unicode separators count as one
and the same character. -/
def lineBreak? (p : Point) : Option (Char × Point) :=
  match p.rest with
  | '\r' :: '\n' :: _ => some ('\n', p.advanceBy 2)
  | c :: _ => if isBreak c then some (if c.toNat < 0x2028 then '\n' else c, p.advance) else none
  | [] => none

/-- Whether a mark between documents follows. -/
def atMark (p : Point) : Bool :=
  match p.rest with
  | '-' :: '-' :: '-' :: rest => atGap rest
  | '.' :: '.' :: '.' :: rest => atGap rest
  | _ => false

def at? (p : Point) (c : Char) : Bool := p.rest.head? == some c

end Point

/-- What a line break inside a scalar stands for, with the breaks of the empty lines behind it: a single
one is a space, and of several the first one is dropped. -/
def folded (first : Char) (others : List Char) : List Char :=
  if first != '\n' then first :: others
  else if others.isEmpty then [' ']
  else others

end QasmCircuit.Yaml
