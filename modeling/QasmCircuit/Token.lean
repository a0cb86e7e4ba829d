import QasmCircuit.Position

/-!
# Tokens

The terminals of the language: keywords, names, numbers, quoted texts and symbols, each with the label
under which messages and trees know it.
-/

namespace QasmCircuit

/-- The functions of parameter expressions. -/
inductive Function where
  | sin
  | cos
  | tan
  | exp
  | ln
  | sqrt
deriving Repr, DecidableEq

def Function.text : Function → String
  | .sin => "sin"
  | .cos => "cos"
  | .tan => "tan"
  | .exp => "exp"
  | .ln => "ln"
  | .sqrt => "sqrt"

/-- The functions in the order of the language. -/
def Function.all : List Function := [.sin, .cos, .tan, .exp, .ln, .sqrt]

def Function.ofText? (s : String) : Option Function := Function.all.find? fun f => f.text == s

/-- The words with a meaning of their own, where the grammar gives them one. -/
inductive Keyword where
  | openqasm
  | includes
  | qreg
  | creg
  | gate
  | guard
  | unitary
  | controlledNot
  | measure
  | barrier
  | pi
  | function (f : Function)
deriving Repr, DecidableEq

namespace Keyword

def text : Keyword → String
  | .openqasm => "OPENQASM"
  | .includes => "include"
  | .qreg => "qreg"
  | .creg => "creg"
  | .gate => "gate"
  | .guard => "if"
  | .unitary => "U"
  | .controlledNot => "CX"
  | .measure => "measure"
  | .barrier => "barrier"
  | .pi => "pi"
  | .function f => f.text

/-- The label of a keyword: its spelling in upper case. -/
def label (k : Keyword) : String := String.ofList (k.text.toList.map Char.toUpper)

/-- The keywords that begin a declaration or a statement of a program. -/
def statements : List Keyword :=
  [.includes, .qreg, .creg, .gate, .guard, .unitary, .controlledNot, .measure, .barrier]

def operands : List Keyword := .pi :: Function.all.map .function

def all : List Keyword := .openqasm :: statements ++ operands

/-- The keyword among `allowed` with a spelling. -/
def ofText? (allowed : List Keyword) (s : String) : Option Keyword := allowed.find? fun k => k.text == s

end Keyword

/-- The symbols of the language. -/
inductive Symbol where
  | semicolon
  | comma
  | leftParen
  | rightParen
  | leftBracket
  | rightBracket
  | leftBrace
  | rightBrace
  | plus
  | minus
  | star
  | slash
  | caret
  | equals
  | arrow
deriving Repr, DecidableEq

def Symbol.label : Symbol → String
  | .semicolon => "SEMICOLON"
  | .comma => "COMMA"
  | .leftParen => "LPAR"
  | .rightParen => "RPAR"
  | .leftBracket => "LSQB"
  | .rightBracket => "RSQB"
  | .leftBrace => "LBRACE"
  | .rightBrace => "RBRACE"
  | .plus => "PLUS"
  | .minus => "MINUS"
  | .star => "STAR"
  | .slash => "SLASH"
  | .caret => "CIRCUMFLEX"
  | .equals => "__ANON_0"
  | .arrow => "__ANON_1"

/-- The symbol that one character stands for. -/
def Symbol.ofChar? : Char → Option Symbol
  | ';' => some .semicolon
  | ',' => some .comma
  | '(' => some .leftParen
  | ')' => some .rightParen
  | '[' => some .leftBracket
  | ']' => some .rightBracket
  | '\x7b' => some .leftBrace
  | '\x7d' => some .rightBrace
  | '+' => some .plus
  | '-' => some .minus
  | '*' => some .star
  | '/' => some .slash
  | '^' => some .caret
  | _ => none

/-- The terminals of the grammar, with the end of the text as one of them. -/
inductive Terminal where
  | keyword (k : Keyword)
  | name
  | integer
  | number
  | string
  | symbol (s : Symbol)
  | finish
deriving Repr, DecidableEq

def Terminal.label : Terminal → String
  | .keyword k => k.label
  | .name => "CNAME"
  | .integer => "INT"
  | .number => "NUMBER"
  | .string => "STRING"
  | .symbol s => s.label
  | .finish => "$END"

/-- A terminal with its spelling and its place. -/
structure Token where
  terminal : Terminal
  text : String
  position : Position
deriving Repr, DecidableEq

end QasmCircuit
