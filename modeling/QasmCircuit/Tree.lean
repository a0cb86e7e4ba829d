import QasmCircuit.Fault

/-!
# Trees

A tree has labelled nodes over tokens. Trees that were read from a text carry places; a tree that was
built by hand stands where the first tree or token below it stands. A tree may also hold plain data,
which no text gives rise to.
-/

namespace QasmCircuit

/-- A tree over tokens and plain data. -/
inductive Tree where
  | node (label : String) (position : Option Position) (children : List Tree)
  | token (kind text : String) (line col : Option Int)
  | datum (value : Datum)
deriving Inhabited

namespace Tree

def leaf (kind text : String) (position : Position) : Tree :=
  .token kind text (some position.line) (some position.col)

/-- Whether a tree is not plain data. -/
def isProper : Tree → Bool
  | .datum _ => false
  | _ => true

def isNode : Tree → Bool
  | .node .. => true
  | _ => false

def hasLabel (label : String) : Tree → Bool
  | .node l _ _ => l == label
  | _ => false

mutual

def position : Tree → Position
  | .node _ (some p) _ => p.clamp
  | .node _ none children => firstPosition children
  | .token _ _ (some line) (some col) => Position.clamp ⟨line, col⟩
  | .token .. => .origin
  | .datum _ => .origin

/-- The place of the first of some trees that is not plain data. -/
def firstPosition : List Tree → Position
  | [] => .origin
  | .datum _ :: rest => firstPosition rest
  | child :: _ => child.position

end

mutual

/-- The first token of a kind among a tree and what is below it, in the order of the text. -/
def findToken? (kind : String) : Tree → Option Tree
  | .node _ _ children => findTokenIn? kind children
  | .token k text line col => if k = kind then some (.token k text line col) else none
  | .datum _ => none

def findTokenIn? (kind : String) : List Tree → Option Tree
  | [] => none
  | child :: rest =>
    match child.findToken? kind with
    | some found => some found
    | none => findTokenIn? kind rest

end

/-- The first node with a label among some trees. -/
def findChild? (label : String) (children : List Tree) : Option Tree :=
  children.find? (hasLabel label)

def spelling : Tree → Except Fault String
  | .token _ text _ _ => .ok text
  | _ => .error .missingPart

mutual

def shown : Tree → String
  | .node label _ children =>
    "Tree(" ++ Text.quoted label ++ ", [" ++ Text.join ", " (shownAll children) ++ "])"
  | .token kind text _ _ => "Token(" ++ Text.quoted kind ++ ", " ++ Text.quoted text ++ ")"
  | .datum d => d.shown

/-- The texts of some trees inside a message. -/
def shownAll : List Tree → List String
  | [] => []
  | t :: rest => t.shown :: shownAll rest

end

mutual

/-- Whether two trees are equal, wherever they stand. A token is also equal to a text that spells it. -/
def same : Tree → Tree → Bool
  | .node label _ xs, .node other _ ys => label == other && sameAll xs ys
  | .token kind text _ _, .token other spelled _ _ => kind == other && text == spelled
  | .token _ text _ _, .datum d => d.same (.text text)
  | .datum d, .token _ text _ _ => d.same (.text text)
  | .datum d, .datum e => d.same e
  | _, _ => false

/-- Whether some trees are equal to others, one by one. -/
def sameAll : List Tree → List Tree → Bool
  | [], [] => true
  | x :: xs, y :: ys => x.same y && sameAll xs ys
  | _, _ => false

end

def children : Tree → List Tree
  | .node _ _ children => children
  | _ => []

end Tree

end QasmCircuit
