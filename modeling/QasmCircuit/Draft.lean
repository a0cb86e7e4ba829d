import QasmCircuit.Tree

/-!
# Drafts

A `Draft` is a program, or a part of one, as a caller hands it in. Any part may stand in any place, and any
value in any field; what does not fit shows when the draft is rendered, checked or turned into a circuit.
Programs that were read from a text are no drafts but `Program`s.
-/

namespace QasmCircuit

/-- The kinds of parts of a program. -/
inductive DraftKind where
  | qubit
  | clbit
  /-- An operand of a primitive gate. -/
  | operand
  | symbolic
  | call
  /-- A call of a primitive gate. -/
  | primitive
  | measure
  | barrier
  | comment
  | includes
  | gate
  | program
deriving Repr, DecidableEq

/-- A program, a part of one, or what stands in its place. -/
inductive Draft where
  /-- A plain value without members. -/
  | value (datum : Datum)
  | list (items : List Draft)
  /-- A list that stays as it is. -/
  | tuple (items : List Draft)
  | mapping (entries : List (Datum × Draft))
  | tree (tree : Tree)
  | node (kind : DraftKind) (fields : List (String × Draft))
deriving Inhabited

namespace DraftKind

def all : List DraftKind :=
  [.qubit, .clbit, .operand, .symbolic, .call, .primitive, .measure, .barrier, .comment, .includes, .gate, .program]

def title : DraftKind → String
  | .qubit => "QRef"
  | .clbit => "CRef"
  | .operand => "IndexedIdAST"
  | .symbolic => "SymbolicParam"
  | .call => "GateCallAST"
  | .primitive => "UniversalUnitaryAST"
  | .measure => "MeasureAST"
  | .barrier => "BarrierAST"
  | .comment => "CommentAST"
  | .includes => "IncludeAST"
  | .gate => "GateDefAST"
  | .program => "ProgramAST"

def ofTitle? (title : String) : Option DraftKind := all.find? fun k => k.title == title

def required (name : String) : String × Option Draft := (name, none)

/-- A field that is null unless it is given. -/
def nullable (name : String) : String × Option Draft := (name, some (.value .null))

/-- A field that is an empty list unless it is given. -/
def listed (name : String) : String × Option Draft := (name, some (.list []))

/-- The fields for a place in a text. -/
def place : List (String × Option Draft) :=
  [("line", some (.value (.int 1))), ("col", some (.value (.int 1)))]

/-- The fields of a kind, each with the value that it has if it is not given. -/
def fields : DraftKind → List (String × Option Draft)
  | .qubit | .clbit => [required "reg", nullable "idx"] ++ place
  | .operand => [required "identifier", nullable "index"] ++ place
  | .symbolic => [required "text", nullable "expr"]
  | .call => [required "name"] ++ place ++ [listed "params", listed "qargs", nullable "condition"]
  | .primitive => [required "op", listed "arg", listed "arg2", nullable "condition"] ++ place
  | .measure => [required "q", required "c"] ++ place ++ [nullable "condition"]
  | .barrier => place ++ [listed "qargs"]
  | .comment => [required "text"] ++ place
  | .includes => [required "path"] ++ place
  | .gate => [required "name"] ++ place ++ [listed "params", listed "qargs", listed "body"]
  | .program =>
    [("version", some (.value (.text "2.0"))), listed "includes", listed "qregs", listed "cregs",
      ("gate_defs", some (.mapping [])), listed "body"]

end DraftKind

namespace Draft

def null : Draft := .value .null

def text (s : String) : Draft := .value (.text s)

def isNull : Draft → Bool
  | .value .null => true
  | _ => false

def isText (s : String) : Draft → Bool
  | .value (.text t) => t == s
  | _ => false

def isKind (kind : DraftKind) : Draft → Bool
  | .node k _ => k == kind
  | _ => false

/-- Whether a value says nothing: it is null, false, zero or empty. -/
def isVoid : Draft → Bool
  | .value .null => true
  | .value (.bool b) => !b
  | .value (.int n) => n == 0
  | .value (.real x) => x == 0.0
  | .value (.text s) => s.isEmpty
  | .list items | .tuple items => items.isEmpty
  | .mapping entries => entries.isEmpty
  | _ => false

def get (d : Draft) (name : String) : Except Fault Draft :=
  match d with
  | .node _ fields => match fields.lookup name with
    | some x => .ok x
    | none => .error .missingPart
  | _ => .error .missingPart

/-- The items of a draft: those of a list, the characters of a text, or the keys of a mapping. -/
def items : Draft → Except Fault (List Draft)
  | .list items | .tuple items => .ok items
  | .value (.text s) => .ok (s.toList.map fun c => text (String.singleton c))
  | .mapping entries => .ok (entries.map fun e => .value e.1)
  | _ => .error .wrongKind

def itemsOf (d : Draft) (name : String) : Except Fault (List Draft) := do (← d.get name).items

def pair (d : Draft) : Except Fault (Draft × Draft) := do
  match ← d.items with
  | [a, b] => pure (a, b)
  | [] => throw (.defect (.tooFewItems 0))
  | [_] => throw (.defect (.tooFewItems 1))
  | _ => throw (.defect .tooManyItems)

/-- A value that can be a key of a table. -/
def key : Draft → Except Fault Datum
  | .value d => .ok d
  | _ => .error .wrongKind

/-- The name of the kind of what stands in the place of a part, as messages give it. -/
def kindName : Draft → String
  | .value d => d.kindName
  | .list _ => "list"
  | .tuple _ => "tuple"
  | .mapping _ => "dict"
  | .tree _ => "Tree"
  | .node kind _ => kind.title

mutual

def ofDatum : Datum → Draft
  | .list items => .list (ofItems items)
  | .mapping entries => .mapping (ofEntries entries)
  | d => .value d

def ofItems : List Datum → List Draft
  | [] => []
  | d :: rest => ofDatum d :: ofItems rest

/-- Plain entries with drafts for their values. -/
def ofEntries : List (Datum × Datum) → List (Datum × Draft)
  | [] => []
  | (key, d) :: rest => (key, ofDatum d) :: ofEntries rest

end

mutual

/-- The plain value that a draft is, if it holds no part of a program. -/
def plain? : Draft → Option Datum
  | .value d => some d
  | .list items => (plainItems? items).map .list
  | .mapping entries => (plainEntries? entries).map .mapping
  | _ => none

def plainItems? : List Draft → Option (List Datum)
  | [] => some []
  | d :: rest => do pure ((← d.plain?) :: (← plainItems? rest))

def plainEntries? : List (Datum × Draft) → Option (List (Datum × Datum))
  | [] => some []
  | (key, d) :: rest => do pure ((key, ← d.plain?) :: (← plainEntries? rest))

end

/-- The texts of the items of a list that stays as it is: a single one is followed by a comma. -/
def tupleText : List String → String
  | [item] => "(" ++ item ++ ",)"
  | items => "(" ++ Text.join ", " items ++ ")"

mutual

def shown : Draft → String
  | .value d => d.shown
  | .list items => "[" ++ Text.join ", " (shownItems items) ++ "]"
  | .tuple items => tupleText (shownItems items)
  | .mapping entries => "\x7b" ++ Text.join ", " (shownEntries entries) ++ "\x7d"
  | .tree t => t.shown
  | .node kind fields => kind.title ++ "(" ++ Text.join ", " (shownFields fields) ++ ")"

def shownItems : List Draft → List String
  | [] => []
  | d :: rest => d.shown :: shownItems rest

def shownEntries : List (Datum × Draft) → List String
  | [] => []
  | (key, d) :: rest => (key.shown ++ ": " ++ d.shown) :: shownEntries rest

def shownFields : List (String × Draft) → List String
  | [] => []
  | (name, d) :: rest => (name ++ "=" ++ d.shown) :: shownFields rest

end

/-- The text of a draft as a part of another text: a text stands for itself. -/
def asName : Draft → String
  | .value d => d.asName
  | d => d.shown

mutual

/-- Whether two drafts are equal: parts of a program field by field, mappings whatever the order of their
entries. -/
def same : Draft → Draft → Bool
  | .value a, .value b => a.same b
  | .list xs, .list ys => sameItems xs ys
  | .tuple xs, .tuple ys => sameItems xs ys
  | .mapping es, .mapping fs => es.length == fs.length && sameEntries es fs
  | .tree a, .tree b => a.same b
  | .node kind fs, .node other gs => kind == other && sameFields fs gs
  | _, _ => false

/-- Whether two lists are equal item by item. -/
def sameItems : List Draft → List Draft → Bool
  | [], [] => true
  | x :: xs, y :: ys => x.same y && sameItems xs ys
  | _, _ => false

def sameEntries : List (Datum × Draft) → List (Datum × Draft) → Bool
  | [], _ => true
  | (k, v) :: rest, fs =>
    (match fs.find? fun e => k.sameKey e.1 with
      | some e => v.same e.2
      | none => false) && sameEntries rest fs

/-- Whether the fields of two parts of one kind are equal. -/
def sameFields : List (String × Draft) → List (String × Draft) → Bool
  | [], [] => true
  | (_, x) :: xs, (_, y) :: ys => x.same y && sameFields xs ys
  | _, _ => false

end

mutual

/-- How deep a draft is nested. -/
def depth : Draft → Nat
  | .value _ | .tree _ => 1
  | .list items | .tuple items => depthOfItems items + 1
  | .mapping entries => depthOfEntries entries + 1
  | .node _ fields => depthOfFields fields + 1

/-- How deep some items are nested. -/
def depthOfItems : List Draft → Nat
  | [] => 0
  | d :: rest => max d.depth (depthOfItems rest)

/-- How deep some entries are nested. -/
def depthOfEntries : List (Datum × Draft) → Nat
  | [] => 0
  | (_, d) :: rest => max d.depth (depthOfEntries rest)

/-- How deep some fields are nested. -/
def depthOfFields : List (String × Draft) → Nat
  | [] => 0
  | (_, d) :: rest => max d.depth (depthOfFields rest)

end

/-- Puts a declared gate into a table of gates by name: one of the same name gives up its place to it. -/
def putGate (name : Datum) (gate : Draft) : List (Datum × Draft) → List (Datum × Draft)
  | [] => [(name, gate)]
  | (n, g) :: rest => if n.sameKey name then (n, gate) :: rest else (n, g) :: putGate name gate rest

def gateTable (gates : List Draft) : Except Fault (List (Datum × Draft)) :=
  gates.foldlM (fun table g => do pure (putGate (← (← g.get "name").key) g table)) []

/-- A draft with the same items that stays as it is. -/
def asTuple (d : Draft) : Except Fault Draft := do pure (.tuple (← d.items))

/-- The value of a field, given the draft for it. A guard and the declaration of a register stay as they are,
and the declared gates of a program have different names. -/
def fieldOf (name : String) (d : Draft) : Except Fault Draft := do
  match name with
  | "gate_defs" => pure (.mapping (← gateTable (← d.items)))
  | "qregs" | "cregs" => pure (.list (← (← d.items).mapM asTuple))
  | "condition" => if d.isNull then pure d else d.asTuple
  | _ => pure d

/-- The value of a field of a new draft, where some fields are given. -/
def fieldValue (given : List (String × Draft)) : String × Option Draft → Except Fault (String × Draft)
  | (name, default) =>
    match given.lookup name, default with
    | some d, _ => do pure (name, ← fieldOf name d)
    | none, some d => .ok (name, d)
    | none, none => .error .wrongKind

/-- The declared gates of a program by name. -/
def declared (d : Draft) : Except Fault (List (Datum × Draft)) := do
  match ← d.get "gate_defs" with
  | .mapping entries => pure entries
  | _ => throw .missingPart

/-- A part of a program with some of its fields. -/
def make (kind : DraftKind) (given : List (String × Draft)) : Except Fault Draft := do
  if !given.all fun e => (kind.fields.map (·.1)).contains e.1 then throw .wrongKind
  pure (.node kind (← kind.fields.mapM (fieldValue given)))

end Draft

end QasmCircuit
