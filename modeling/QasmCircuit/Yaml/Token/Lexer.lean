import QasmCircuit.Yaml.Token
import QasmCircuit.Yaml.Plain
import QasmCircuit.Yaml.Quoted

/-!
# Reading the tokens of a data file

A key has no mark in front of it: that something is a key shows only at the colon behind it. The reader
therefore remembers, for every open bracket, where a key may have begun, and puts the tokens for the key
there once it meets the colon. A key has to stand on one line together with its colon. A text that cannot
be read to its end gives the tokens that are settled up to there.

Collections in brackets or with indentation, comments, and scalars with and without quotes are read.
Anything else that could begin a token makes a file malformed.
-/

namespace QasmCircuit.Yaml

/-- Where a key may have begun. -/
structure KeyStart where
  /-- How many tokens stand in front of it. -/
  tokens : Nat
  /-- Whether nothing but a key can stand there. -/
  required : Bool
  start : Point

/-- The state of the reader. -/
structure Lexer where
  point : Point
  /-- The columns of the open blocks, the innermost one first. -/
  indents : List Nat := []
  /-- Where a key may have begun: one place for every open bracket, the innermost one first, and one for
  the blocks around them. -/
  keys : List (Option KeyStart) := [none]
  /-- Whether a key may begin here. -/
  keyAllowed : Bool := true
  /-- The tokens so far, the last one first. -/
  tokens : List Token := []

namespace Lexer

/-- A character that no data file may hold. -/
def isControl (c : Char) : Bool :=
  let n := c.toNat
  !(n == 9 || n == 10 || n == 13 || (0x20 ≤ n && n ≤ 0x7E) || n == 0x85 || (0xA0 ≤ n && n ≤ 0xFFFD) || 0x10000 ≤ n)

def inFlow (l : Lexer) : Bool := l.keys.length > 1

def emit (l : Lexer) (t : Token) : Lexer := { l with tokens := t :: l.tokens }

def forward (l : Lexer) (n : Nat) : Lexer := { l with point := l.point.advanceBy n }

/-- Skips spaces, comments and line breaks. A key may begin on a new line outside of brackets. -/
def skip : Nat → Lexer → Lexer
  | 0, l => l
  | n + 1, l =>
    let (_, p) := l.point.span (· == ' ')
    let p := if p.at? '#' then (p.span fun c => !isBreak c).2 else p
    match p.lineBreak? with
    | none => { l with point := p }
    | some (_, p) => skip n { l with point := p, keyAllowed := l.keyAllowed || !l.inFlow }

/-- Forgets the places of keys that the reader has left behind. -/
def dropStale (l : Lexer) : Except Fault Lexer := do
  let keys ← l.keys.mapM fun
    | none => .ok none
    | some k =>
      if k.start.line = l.point.line && l.point.index - k.start.index ≤ 1024 then .ok (some k)
      else if k.required then .error Fault.malformedFile
      else .ok none
  pure { l with keys }

/-- Forgets the place of a key inside the innermost bracket. -/
def dropKey (l : Lexer) : Except Fault Lexer :=
  match l.keys with
  | some k :: keys => if k.required then .error .malformedFile else .ok { l with keys := none :: keys }
  | _ => .ok l

/-- Remembers that a key may begin here. -/
def saveKey (l : Lexer) : Except Fault Lexer :=
  if l.keyAllowed then do
    let required := !l.inFlow && l.indents.head? == some l.point.column
    let l ← l.dropKey
    pure { l with keys := some ⟨l.tokens.length, required, l.point⟩ :: l.keys.tail }
  else .ok l

/-- Closes the blocks that are indented more than a column. -/
def closeBlocks (column : Int) : List Nat → List Token → List Nat × List Token
  | [], tokens => ([], tokens)
  | i :: is, tokens => if column < i then closeBlocks column is (.blockEnd :: tokens) else (i :: is, tokens)

/-- Closes the blocks that end at a column, unless a bracket is open. -/
def unwind (l : Lexer) (column : Int) : Lexer :=
  if l.inFlow then l
  else
    let (indents, tokens) := closeBlocks column l.indents l.tokens
    { l with indents, tokens }

/-- Whether a column opens a new block. -/
def opensBlock (l : Lexer) (column : Nat) : Bool :=
  match l.indents with
  | [] => true
  | i :: _ => i < column

/-- Opens a block at a column, unless it is open already. -/
def openBlock (l : Lexer) (column : Nat) (t : Token) : Lexer :=
  if l.opensBlock column then { l with indents := column :: l.indents, tokens := t :: l.tokens } else l

def mark (l : Lexer) (t : Token) : Except Fault Lexer := do
  let l ← (l.unwind (-1)).dropKey
  pure (({ l with keyAllowed := false }.forward 3).emit t)

def openFlow (l : Lexer) (t : Token) : Except Fault Lexer := do
  let l ← l.saveKey
  pure (({ l with keys := none :: l.keys, keyAllowed := true }.forward 1).emit t)

def closeFlow (l : Lexer) (t : Token) : Except Fault Lexer := do
  if !l.inFlow then throw .malformedFile
  let l ← l.dropKey
  pure (({ l with keys := l.keys.tail, keyAllowed := false }.forward 1).emit t)

def comma (l : Lexer) : Except Fault Lexer := do
  let l ← l.dropKey
  pure (({ l with keyAllowed := true }.forward 1).emit .comma)

/-- The dash in front of an item. -/
def item (l : Lexer) : Except Fault Lexer := do
  if !l.inFlow && !l.keyAllowed then throw .malformedFile
  let l := if l.inFlow then l else l.openBlock l.point.column .blockSequence
  let l ← l.dropKey
  pure (({ l with keyAllowed := true }.forward 1).emit .item)

/-- The question mark in front of a key. -/
def key (l : Lexer) : Except Fault Lexer := do
  if !l.inFlow && !l.keyAllowed then throw .malformedFile
  let l := if l.inFlow then l else l.openBlock l.point.column .blockMapping
  let l ← l.dropKey
  pure (({ l with keyAllowed := !l.inFlow }.forward 1).emit .key)

/-- Puts the tokens of a key in front of it. -/
def insertKey (l : Lexer) (k : KeyStart) : Lexer :=
  let after := l.tokens.take (l.tokens.length - k.tokens)
  let before := l.tokens.drop (l.tokens.length - k.tokens)
  if !l.inFlow && l.opensBlock k.start.column then
    { l with indents := k.start.column :: l.indents, tokens := after ++ .key :: .blockMapping :: before }
  else { l with tokens := after ++ .key :: before }

/-- The colon in front of a value. -/
def value (l : Lexer) : Except Fault Lexer := do
  match l.keys with
  | some k :: keys =>
    pure (({ l.insertKey k with keys := none :: keys, keyAllowed := false }.forward 1).emit .value)
  | _ =>
    if !l.inFlow && !l.keyAllowed then throw .malformedFile
    let l := if l.inFlow then l else l.openBlock l.point.column .blockMapping
    let l ← l.dropKey
    pure (({ l with keyAllowed := !l.inFlow }.forward 1).emit .value)

def quoted (l : Lexer) (double : Bool) : Except Fault Lexer := do
  let l ← l.saveKey
  let (text, point) ← quotedScalar double l.point
  pure ({ l with point, keyAllowed := false }.emit (.scalar text false))

def plain (l : Lexer) : Except Fault Lexer := do
  let l ← l.saveKey
  let least := match l.indents with
    | [] => 0
    | i :: _ => i + 1
  let (text, broken, point) := plainScalar l.inFlow least l.point
  pure ({ l with point, keyAllowed := broken }.emit (.scalar text true))

/-- Whether a scalar without quotes can begin with a character in front of a text. -/
def beginsPlain (l : Lexer) (c : Char) (rest : List Char) : Bool :=
  let special := ['-', '?', ':', ',', '[', ']', '\x7b', '\x7d', '#', '&', '*', '!', '|', '>', '\'', '"', '%',
    '@', Char.ofNat 96]
  !(isGap c || special.contains c) || (!atGap rest && (c == '-' || (!l.inFlow && (c == '?' || c == ':'))))

/-- The token that begins with a character. -/
def token (l : Lexer) (c : Char) (rest : List Char) : Except Fault Lexer :=
  if l.point.column = 0 && l.point.atMark then
    l.mark (if c == '-' then .documentStart else .documentEnd)
  else match c with
    | '[' => l.openFlow .flowSequence
    | '\x7b' => l.openFlow .flowMapping
    | ']' => l.closeFlow .flowSequenceEnd
    | '\x7d' => l.closeFlow .flowMappingEnd
    | ',' => l.comma
    | '\'' => l.quoted false
    | '"' => l.quoted true
    | c =>
      if c == '-' && atGap rest then l.item
      else if c == '?' && (l.inFlow || atGap rest) then l.key
      else if c == ':' && (l.inFlow || atGap rest) then l.value
      else if l.beginsPlain c rest then l.plain
      else .error .malformedFile

/-- Reads one token, or the end of the text, where nothing more is to be read. -/
def next (l : Lexer) : Except Fault (Lexer × Bool) := do
  let l ← (l.skip (l.point.rest.length + 1)).dropStale
  match l.point.rest with
  | [] =>
    let l ← (l.unwind (-1)).dropKey
    pure (l, true)
  | c :: rest =>
    let l ← (l.unwind l.point.column).token c rest
    pure (l, false)

/-- The tokens that are settled: those in front of every place where a key may have begun. -/
def settled (l : Lexer) : List Token :=
  let starts := l.keys.filterMap fun k => k.map KeyStart.tokens
  l.tokens.reverse.take (starts.foldl min l.tokens.length)

/-- Reads all tokens, up to where nothing can be read. The first argument bounds their number. -/
def run : Nat → Lexer → List Token
  | 0, l => l.tokens.reverse
  | n + 1, l =>
    match l.next with
    | .ok (l, done) => if done then l.tokens.reverse else run n l
    | .error f => (l.dropStale.toOption.getD l).settled ++ [.broken f]

end Lexer

def tokens (s : String) : List Token :=
  let cs := s.toList
  if cs.any Lexer.isControl then [.broken .malformedFile]
  else
    let start : Point := ⟨cs, 0, 0, 0⟩
    let start := if start.at? '\ufeff' then start.advance else start
    Lexer.run (cs.length + 1) { point := start }

end QasmCircuit.Yaml
