import QasmCircuit.Token
import QasmCircuit.Fault

/-!
# Reading tokens

Which words are keywords depends on where they stand: the grammar says at every point which keywords
it has use for, and every other word there is a name. The reader is therefore asked for one token at a
time, with the `Context` of the point that it stands at.

> `Cursor.skipSpace_length_le`: skipping never adds to the text.
-/

namespace QasmCircuit

/-- What the grammar has use for at some point, as far as it decides how a text is cut into tokens. -/
structure Context where
  /-- The keywords that are read as such. -/
  keywords : List Keyword := Keyword.all
  /-- Whether other words are names. Where they are not, a keyword need not end where the word ends. -/
  names : Bool := true
  /-- Whether digits are an integer rather than a number. -/
  integers : Bool := false
  /-- Whether a minus sign stands for itself in front of a greater sign. -/
  minus : Bool := false

/-- Points where the kind of token does not depend on what is expected. -/
def Context.any : Context := {}

/-- The beginning of the text. -/
def Context.start : Context := { keywords := [.openqasm], names := false }

/-- Points where only a name can follow. -/
def Context.name : Context := { keywords := [] }

/-- Points where only an integer can follow. -/
def Context.integer : Context := { integers := true }

/-- Points where a declaration or a statement can follow. -/
def Context.statement : Context := { keywords := Keyword.statements }

/-- The point after the brace that opens the body of a gate. -/
def Context.body : Context := { keywords := [.unitary, .controlledNot, .barrier] }

def Context.guarded : Context := { keywords := [.unitary, .controlledNot, .measure] }

/-- Points where an expression can begin. -/
def Context.operand : Context := { keywords := Keyword.operands, minus := true }

/-- Points behind a complete operand of an expression. -/
def Context.operator : Context := { minus := true }

/-- A token without its place: a terminal, its spelling, and what follows it. -/
structure Lexeme where
  terminal : Terminal
  spelling : List Char
  rest : List Char

namespace Lexeme

/-- Characters that may begin a word. -/
def isWordStart (c : Char) : Bool := c.isAlpha || c = '_'

/-- Characters that may continue a word. -/
def isWordChar (c : Char) : Bool := c.isAlphanum || c = '_'

/-- The rest of a text behind a spelling that it begins with. -/
def afterSpelling? : List Char → List Char → Option (List Char)
  | [], rest => some rest
  | _ :: _, [] => none
  | c :: cs, d :: ds => if c = d then afterSpelling? cs ds else none

/-- A word: one of the keywords in use, or a name. -/
def word (context : Context) (cs : List Char) : Lexeme :=
  let spelling := cs.takeWhile isWordChar
  let rest := cs.dropWhile isWordChar
  let whole (keywords : List Keyword) : Lexeme :=
    match Keyword.ofText? keywords (String.ofList spelling) with
    | some k => ⟨.keyword k, spelling, rest⟩
    | none => ⟨.name, spelling, rest⟩
  if context.names then whole context.keywords
  else
    let part? := context.keywords.findSome? fun k =>
      (afterSpelling? k.text.toList cs).map fun rest => (⟨.keyword k, k.text.toList, rest⟩ : Lexeme)
    part?.getD (whole Keyword.all)

/-- Digits in front, and what follows them. -/
def digits (cs : List Char) : List Char × List Char :=
  (cs.takeWhile Char.isDigit, cs.dropWhile Char.isDigit)

/-- A sign in front, if there is one, and what follows it. -/
def sign : List Char → List Char × List Char
  | '+' :: r => (['+'], r)
  | '-' :: r => (['-'], r)
  | r => ([], r)

/-- An exponent with its digits, or nothing. -/
def exponent (cs : List Char) : List Char × List Char :=
  match cs with
  | e :: r =>
    if e = 'e' || e = 'E' then
      let (sign, r) := sign r
      let (ds, r) := digits r
      if ds.isEmpty then ([], cs) else (e :: sign ++ ds, r)
    else ([], cs)
  | [] => ([], [])

/-- A point with the digits behind it, or nothing. There must be digits on one side of the point. -/
def fraction (whole : List Char) : List Char → List Char × List Char
  | '.' :: r =>
    let (fs, r') := digits r
    if whole.isEmpty && fs.isEmpty then ([], '.' :: r) else ('.' :: fs, r')
  | r => ([], r)

/-- The longest number that a text begins with: digits, with a point among or beside them, and an
exponent. -/
def number? (cs : List Char) : Option Lexeme :=
  let (whole, r) := digits cs
  let (fraction, r) := fraction whole r
  if whole.isEmpty && fraction.isEmpty then none
  else
    let (e, r) := exponent r
    some ⟨.number, whole ++ fraction ++ e, r⟩

/-- A text in double quotes on one line. -/
def string? (cs : List Char) : Option Lexeme :=
  let inside := cs.takeWhile fun c => c ≠ '"' && c ≠ '\n'
  match cs.dropWhile fun c => c ≠ '"' && c ≠ '\n' with
  | '"' :: rest => some ⟨.string, '"' :: inside ++ ['"'], rest⟩
  | _ => none

def symbol? (context : Context) : List Char → Option Lexeme
  | '=' :: '=' :: rest => some ⟨.symbol .equals, ['=', '='], rest⟩
  | '-' :: '>' :: rest =>
    if context.minus then some ⟨.symbol .minus, ['-'], '>' :: rest⟩
    else some ⟨.symbol .arrow, ['-', '>'], rest⟩
  | c :: rest => (Symbol.ofChar? c).map fun s => ⟨.symbol s, [c], rest⟩
  | [] => none

def read? (context : Context) : List Char → Option Lexeme
  | [] => none
  | c :: cs =>
    if isWordStart c then some (word context (c :: cs))
    else if c.isDigit && context.integers then
      let (ds, rest) := digits (c :: cs)
      some ⟨.integer, ds, rest⟩
    else if c.isDigit || c = '.' then number? (c :: cs)
    else if c = '"' then string? cs
    else symbol? context (c :: cs)

end Lexeme

/-- A point in a text: what is left of it, the lines before it and the columns before it in its line, and where the last
token began. -/
structure Cursor where
  rest : List Char
  line : Nat := 0
  col : Nat := 0
  last : Position := .origin

namespace Cursor

def ofText (s : String) : Cursor := { rest := s.toList }

/-- The place of a point, which is a valid one. -/
def position (c : Cursor) : Position := ⟨c.line + 1, c.col + 1⟩

def isSpace (c : Char) : Bool := c = ' ' || c = '\t' || c = '\x0c' || c = '\r' || c = '\n'

/-- Skips the white space and the comments in front, counting lines and columns. The flag tells whether
the text is inside a comment. -/
def skipSpace (inComment : Bool) (line col : Nat) : List Char → List Char × Nat × Nat
  | [] => ([], line, col)
  | c :: cs =>
    if c = '\n' then skipSpace false (line + 1) 0 cs
    else if inComment then skipSpace true line (col + 1) cs
    else if isSpace c then skipSpace false line (col + 1) cs
    else if c = '/' && cs.head? = some '/' then skipSpace true line (col + 1) cs
    else (c :: cs, line, col)

theorem skipSpace_length_le (inComment : Bool) (line col : Nat) (cs : List Char) :
    (skipSpace inComment line col cs).1.length ≤ cs.length := by
  induction cs generalizing inComment line col with
  | nil => simp [skipSpace]
  | cons c cs ih =>
    simp only [skipSpace, List.length_cons]
    split
    · exact Nat.le_succ_of_le (ih ..)
    · split
      · exact Nat.le_succ_of_le (ih ..)
      · split
        · exact Nat.le_succ_of_le (ih ..)
        · split
          · exact Nat.le_succ_of_le (ih ..)
          · exact Nat.le_refl _

/-- Moves a point past the white space and the comments in front. -/
def skip (c : Cursor) : Cursor :=
  let (rest, line, col) := skipSpace false c.line c.col c.rest
  { c with rest, line, col }

/-- Reads the next token. The end of the text is a token too, at the place of the token before it. -/
def next (context : Context) (c : Cursor) : Except Fault (Token × Cursor) :=
  let c := c.skip
  match c.rest with
  | [] => .ok (⟨.finish, "", c.last⟩, c)
  | ch :: _ =>
    match Lexeme.read? context c.rest with
    | none => failAt (.source (.unexpectedCharacter ch c.position)) c.position
    | some lexeme =>
      let token : Token := ⟨lexeme.terminal, String.ofList lexeme.spelling, c.position⟩
      .ok (token, ⟨lexeme.rest, c.line, c.col + lexeme.spelling.length, c.position⟩)

end Cursor

end QasmCircuit
