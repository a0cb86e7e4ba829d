import QasmCircuit.Expr

/-!
# Reading expressions

An expression is read token by token. The machine keeps the operators and parentheses that wait for an
operand, innermost first, and closes those that bind at least as tightly as the next operator: sums and
products associate to the left, powers to the right, and a minus sign in front binds tighter than a
product and looser than a power.
-/

namespace QasmCircuit.Expr

/-- A complete operand, with the place where it begins: an opening parenthesis counts. -/
structure Operand where
  expr : Expr
  start : Position

/-- What waits for an operand. -/
inductive Frame where
  | negate (position : Position)
  | binary (op : Operator) (left : Operand)
  | group (position : Position)
  | call (f : Function) (position : Position)

/-- What the next token may be. -/
inductive Mode where
  /-- An operand must begin. -/
  | operand
  /-- The parenthesis behind the name of a function must follow. -/
  | opening (f : Function) (position : Position)
  /-- An operand is complete. -/
  | operator (operand : Operand)

/-- An expression that has been read up to some token. -/
structure Machine where
  frames : List Frame := []
  mode : Mode := .operand

namespace Machine

/-- The state before the first token. -/
def start : Machine := {}

/-- Whether a frame is closed by an operator of the given level: it binds at least as tightly. -/
def Frame.binds (level : Nat) : Frame → Bool
  | .negate _ => level ≤ negationLevel
  | .binary op _ => level ≤ op.level
  | .group _ | .call .. => false

/-- Gives a waiting frame its operand. -/
def Frame.close (frame : Frame) (value : Operand) : Operand :=
  match frame with
  | .negate p => ⟨.neg p value.expr, p⟩
  | .binary op left => ⟨.binary left.start op left.expr value.expr, left.start⟩
  | .group p => ⟨value.expr, p⟩
  | .call f p => ⟨.call p f value.expr, p⟩

/-- Closes the frames that bind at least as tightly as a level. -/
def collapse (level : Nat) : List Frame → Operand → List Frame × Operand
  | [], value => ([], value)
  | frame :: frames, value =>
    if Frame.binds level frame then collapse level frames (Frame.close frame value)
    else (frame :: frames, value)

/-- The outcome of a token. -/
inductive Step where
  /-- The expression goes on. -/
  | more (machine : Machine)
  /-- The token ends the expression and is not part of it. -/
  | done (expr : Expr)
  /-- The token cannot follow. -/
  | unexpected

/-- The operator that a symbol stands for behind an operand. -/
def operatorOf? : Symbol → Option Operator
  | .plus => some .add
  | .minus => some .sub
  | .star => some .mul
  | .slash => some .div
  | .caret => some .pow
  | _ => none

/-- Goes on behind a complete operand with an operator. -/
def push (op : Operator) (frames : List Frame) (value : Operand) : Machine :=
  -- A power takes the operand next to it, whatever waits before.
  let (frames, value) := if op = .pow then (frames, value) else collapse op.level frames value
  ⟨.binary op value :: frames, .operand⟩

def step (m : Machine) (token : Token) : Step :=
  match m.mode with
  | .operand =>
    match token.terminal with
    | .number => .more ⟨m.frames, .operator ⟨.number token.position token.text, token.position⟩⟩
    | .keyword .pi => .more ⟨m.frames, .operator ⟨.pi token.position, token.position⟩⟩
    | .name => .more ⟨m.frames, .operator ⟨.param token.position token.text, token.position⟩⟩
    | .keyword (.function f) => .more ⟨m.frames, .opening f token.position⟩
    | .symbol .leftParen => .more ⟨.group token.position :: m.frames, .operand⟩
    | .symbol .minus => .more ⟨.negate token.position :: m.frames, .operand⟩
    | _ => .unexpected
  | .opening f p =>
    match token.terminal with
    | .symbol .leftParen => .more ⟨.call f p :: m.frames, .operand⟩
    | _ => .unexpected
  | .operator value =>
    match token.terminal with
    | .symbol .rightParen =>
      match collapse 0 m.frames value with
      | ([], value) => .done value.expr
      | (frame :: frames, value) => .more ⟨frames, .operator (Frame.close frame value)⟩
    | .symbol .comma =>
      match collapse 0 m.frames value with
      | ([], value) => .done value.expr
      | _ => .unexpected
    | .symbol s =>
      match operatorOf? s with
      | some op => .more (push op m.frames value)
      | none => .unexpected
    | _ => .unexpected

/-- The expression that has been read, if nothing waits for an operand. -/
def finish? (m : Machine) : Option Expr :=
  match m.mode with
  | .operator value =>
    match collapse 0 m.frames value with
    | ([], value) => some value.expr
    | _ => none
  | _ => none

def run? : Machine → List Token → Option Machine
  | m, [] => some m
  | m, token :: rest =>
    match m.step token with
    | .more m => run? m rest
    | _ => none

end Machine

/-- The expression that a list of tokens spells. -/
def ofTokens? (tokens : List Token) : Option Expr :=
  (Machine.start.run? tokens).bind Machine.finish?

end QasmCircuit.Expr
