import QasmCircuit.Token.Lexer
import QasmCircuit.Expr.Machine
import QasmCircuit.Source

/-!
# Reading programs

The grammar of the language, one function for each of its rules. Every function asks for the tokens it
needs, in the context of the point it stands at, and reports the first token that cannot follow. Lists
are read with a number of rounds that the length of the text bounds, since every round takes a token.
-/

namespace QasmCircuit.Source

/-- A computation that reads tokens from a point on. -/
abbrev Reader := StateT Cursor (Except Fault)

namespace Reader

def next (context : Context) : Reader Token := fun c => c.next context

/-- Reports a token that cannot follow. -/
def unexpected {α : Type} (token : Token) : Reader α :=
  failAt (.source (.unexpectedToken token.terminal.label token.text token.position)) token.position

/-- The next token, which must be of one kind. -/
def expect (context : Context) (terminal : Terminal) : Reader Token := do
  let token ← next context
  if token.terminal = terminal then pure token else unexpected token

/-- The next symbol, which must be the given one. -/
def symbol (s : Symbol) : Reader Token := expect .any (.symbol s)

def name : Reader Word := do
  let token ← expect .name .name
  pure ⟨token.text, token.position⟩

def integer : Reader Word := do
  let token ← expect .integer .integer
  pure ⟨token.text, token.position⟩

/-- More rounds than the rest of the text has tokens. -/
def rounds : Reader Nat := do
  let c ← get
  pure (c.rest.length + 1)

/-- Reports that the rounds of a list are used up. -/
def exhausted {α : Type} : Reader α := do
  let c ← get
  unexpected ⟨.finish, "", c.last⟩

/-- The context in which an expression goes on. -/
def expressionContext (m : Expr.Machine) : Context :=
  match m.mode with
  | .operand => .operand
  | .opening .. => .any
  | .operator _ => .operator

/-- An expression whose next token has been read, with the token that ends it. -/
def expressionFrom : Nat → Expr.Machine → Token → Reader (Expr × Token)
  | 0, _, _ => exhausted
  | n + 1, m, token =>
    match m.step token with
    | .more m => do
      let token ← next (expressionContext m)
      expressionFrom n m token
    | .done e => pure (e, token)
    | .unexpected => unexpected token

/-- An expression with the token that ends it. -/
def expression : Reader (Expr × Token) := do
  let n ← rounds
  let token ← next .operand
  expressionFrom n .start token

/-- An expression that a given symbol ends. -/
def expressionBefore (s : Symbol) : Reader Expr := do
  let (e, token) ← expression
  if token.terminal = .symbol s then pure e else unexpected token

/-- The expressions behind one with the token that ended it, up to the closing parenthesis. -/
def expressionsAfter : Nat → Expr → Token → Reader (List Expr)
  | 0, _, _ => exhausted
  | n + 1, e, token =>
    if token.terminal = .symbol .comma then do
      let (e', token) ← expression
      let es ← expressionsAfter n e' token
      pure (e :: es)
    else pure [e]

/-- Parameters behind their opening parenthesis. -/
def params (opening : Token) : Reader Params := do
  let n ← rounds
  let token ← next .operand
  if token.terminal = .symbol .rightParen then pure ⟨opening.position, []⟩
  else
    let (e, token) ← expressionFrom n .start token
    pure ⟨opening.position, ← expressionsAfter (← rounds) e token⟩

/-- A reference behind its name, with the token that follows it. -/
def referenceAfter (name : Word) : Reader (Reference × Token) := do
  let token ← next .any
  if token.terminal = .symbol .leftBracket then
    let index ← integer
    let _ ← symbol .rightBracket
    pure (⟨name, some index⟩, ← next .any)
  else pure (⟨name, none⟩, token)

def referenceBefore (s : Symbol) : Reader Reference := do
  let (r, token) ← referenceAfter (← name)
  if token.terminal = .symbol s then pure r else unexpected token

/-- References behind the name of the first one, up to the semicolon. -/
def references : Nat → Word → Reader (List Reference)
  | 0, _ => exhausted
  | n + 1, first => do
    let (r, token) ← referenceAfter first
    match token.terminal with
    | .symbol .comma =>
      let rs ← references n (← name)
      pure (r :: rs)
    | .symbol .semicolon => pure [r]
    | _ => unexpected token

def referenceList : Reader (List Reference) := do
  let first ← name
  references (← rounds) first

/-- The primitive gate behind its keyword. -/
def unitary (position : Position) : Reader Operation := do
  let _ ← symbol .leftParen
  let theta ← expressionBefore .comma
  let phi ← expressionBefore .comma
  let lam ← expressionBefore .rightParen
  let target ← referenceBefore .semicolon
  pure (.unitary position theta phi lam target)

/-- The primitive controlled gate behind its keyword. -/
def controlledNot (position : Position) : Reader Operation := do
  let control ← referenceBefore .comma
  let target ← referenceBefore .semicolon
  pure (.controlledNot position control target)

def call (gate : Word) : Reader Operation := do
  let token ← next .name
  match token.terminal with
  | .symbol .leftParen =>
    let ps ← params token
    pure (.call gate (some ps) (← referenceList))
  | .name => pure (.call gate none (← references (← rounds) ⟨token.text, token.position⟩))
  | _ => unexpected token

/-- An operation that begins with a token; other tokens are left to the caller. -/
def operation? (token : Token) : Option (Reader Operation) :=
  match token.terminal with
  | .keyword .unitary => some (unitary token.position)
  | .keyword .controlledNot => some (controlledNot token.position)
  | .name => some (call ⟨token.text, token.position⟩)
  | _ => none

/-- A measurement behind its keyword. -/
def measure (position : Position) : Reader Action := do
  let qubit ← referenceBefore .arrow
  let clbit ← referenceBefore .semicolon
  pure (.measure position qubit clbit)

def guarded (position : Position) : Reader Statement := do
  let _ ← symbol .leftParen
  let register ← name
  let _ ← symbol .equals
  let value ← integer
  let _ ← symbol .rightParen
  let token ← next .guarded
  match token.terminal, operation? token with
  | .keyword .measure, _ => pure (.guarded position register value (← measure token.position))
  | _, some op => pure (.guarded position register value (.operation (← op)))
  | _, none => unexpected token

/-- The declaration of a register behind its keyword. -/
def register : Reader (Word × Word) := do
  let registerName ← name
  let _ ← symbol .leftBracket
  let size ← integer
  let _ ← symbol .rightBracket
  let _ ← symbol .semicolon
  pure (registerName, size)

/-- Names behind the first one, up to a given symbol, with that symbol's token. -/
def names : Nat → Symbol → Word → Reader (List Word × Token)
  | 0, _, _ => exhausted
  | n + 1, ending, first => do
    let token ← next .any
    if token.terminal = .symbol ending then pure ([first], token)
    else if token.terminal = .symbol .comma then
      let (rest, token) ← names n ending (← name)
      pure (first :: rest, token)
    else unexpected token

/-- Formal parameters behind their opening parenthesis. -/
def formals (opening : Token) : Reader Formals := do
  let token ← next .name
  match token.terminal with
  | .symbol .rightParen => pure ⟨opening.position, []⟩
  | .name =>
    let (ws, _) ← names (← rounds) .rightParen ⟨token.text, token.position⟩
    pure ⟨opening.position, ws⟩
  | _ => unexpected token

/-- The statements of a gate up to the closing brace. -/
def body : Nat → Context → Reader (List BodyStatement)
  | 0, _ => exhausted
  | n + 1, context => do
    let token ← next context
    match token.terminal, operation? token with
    | .symbol .rightBrace, _ => pure []
    | .keyword .barrier, _ =>
      let operands ← referenceList
      pure (.barrier token.position operands :: (← body n .statement))
    | _, some op =>
      let op ← op
      pure (.operation op :: (← body n .statement))
    | _, none => unexpected token

/-- The declaration of a gate behind its keyword. -/
def gate (position : Position) : Reader Declaration := do
  let gateName ← name
  let token ← next .name
  let (ps, first) ← match token.terminal with
    | .symbol .leftParen =>
      let ps ← formals token
      pure (some ps, ← name)
    | .name => pure (none, ⟨token.text, token.position⟩)
    | _ => unexpected token
  let (args, opening) ← names (← rounds) .leftBrace first
  let statements ← body (← rounds) .body
  pure (.gate position gateName ps args opening.position statements)

def item (token : Token) : Reader Item := do
  let p := token.position
  match token.terminal, operation? token with
  | .keyword .includes, _ =>
    let path ← expect .any .string
    let _ ← symbol .semicolon
    pure (.includes p ⟨path.text, path.position⟩)
  | .keyword .qreg, _ =>
    let (w, size) ← register
    pure (.declaration (.qreg p w size))
  | .keyword .creg, _ =>
    let (w, size) ← register
    pure (.declaration (.creg p w size))
  | .keyword .gate, _ => pure (.declaration (← gate p))
  | .keyword .guard, _ => pure (.statement (← guarded p))
  | .keyword .measure, _ => pure (.statement (.action (← measure p)))
  | .keyword .barrier, _ => pure (.statement (.barrier p (← referenceList)))
  | _, some op => pure (.statement (.action (.operation (← op))))
  | _, none => unexpected token

/-- The items up to the end of the text. -/
def items : Nat → Reader (List Item)
  | 0 => exhausted
  | n + 1 => do
    let token ← next .statement
    if token.terminal = .finish then pure []
    else
      let first ← item token
      pure (first :: (← items n))

def program : Reader Source := do
  let opening ← expect .start (.keyword .openqasm)
  let version ← expect .any .number
  let _ ← symbol .semicolon
  let parts ← items (← rounds)
  pure ⟨opening.position, ⟨version.text, version.position⟩, parts⟩

end Reader

def parse (text : String) : Except Fault Source :=
  (Reader.program.run (Cursor.ofText text)).map (·.1)

end QasmCircuit.Source
