import QasmCircuit.Yaml.Scalar
import QasmCircuit.Yaml.Token.Lexer

/-!
# Data files

A data file holds one document: a scalar, a sequence or a mapping. `Yaml.read` gives its value. A key
that is repeated keeps its first place and takes the last value; the entries of a mapping under the key
`<<` are put in front of the others. Collections are filled level by level, so of several scalars
without a value the one that is nested least is reported.
-/

namespace QasmCircuit.Yaml

/-- The structure of a document. -/
inductive Node where
  | scalar (text : String) (plain : Bool)
  | sequence (items : List Node)
  | mapping (entries : List (Node × Node))
  /-- A mapping with a key `<<` whose value has no entries to add. -/
  | unmergeable
deriving Inhabited

namespace Node

/-- What stands where nothing is written. -/
def empty : Node := .scalar "" true

/-- Whether a text goes on with one of some tokens. -/
def beforeAny (ts : List Token) (marks : List Token) : Bool := ts.head?.any marks.contains

/-- The failure at a token that cannot stand where it stands. -/
def unexpected {α : Type} : List Token → Except Fault α
  | .broken f :: _ => .error f
  | _ => .error .malformedFile

/-- The comma that all members of a collection in brackets but the first have in front of them. -/
def afterComma (first : Bool) (ts : List Token) : Except Fault (List Token) :=
  match first, ts with
  | true, ts => .ok ts
  | false, .comma :: ts => .ok ts
  | false, ts => unexpected ts

mutual

/-- Reads a node. Blocks count only where `block` is set, and items that are not indented only where
`bare` is set. The first argument bounds the number of steps. -/
def read : Nat → Bool → Bool → List Token → Except Fault (Node × List Token)
  | 0, _, _, ts => unexpected ts
  | n + 1, block, bare, ts =>
    match ts with
    | .item :: _ =>
      if bare then (bareItems n ts).map fun (is, ts) => (.sequence is, ts) else unexpected ts
    | .scalar text plain :: ts => .ok (.scalar text plain, ts)
    | .flowSequence :: ts => (flowItems n true ts).map fun (is, ts) => (.sequence is, ts)
    | .flowMapping :: ts => (flowEntries n true ts).map fun (es, ts) => (.mapping es, ts)
    | .blockSequence :: rest =>
      if block then (items n rest).map fun (is, ts) => (.sequence is, ts) else unexpected ts
    | .blockMapping :: rest =>
      if block then (entries n rest).map fun (es, ts) => (.mapping es, ts) else unexpected ts
    | ts => unexpected ts

/-- Reads a node unless one of some tokens follows, where nothing is written. -/
def readUnless : Nat → Bool → Bool → List Token → List Token → Except Fault (Node × List Token)
  | 0, _, _, _, ts => unexpected ts
  | n + 1, block, bare, marks, ts => if beforeAny ts marks then .ok (empty, ts) else read n block bare ts

def items : Nat → List Token → Except Fault (List Node × List Token)
  | 0, ts => unexpected ts
  | n + 1, ts =>
    match ts with
    | .item :: ts => do
      let (i, ts) ← readUnless n true false [.item, .blockEnd] ts
      let (is, ts) ← items n ts
      pure (i :: is, ts)
    | .blockEnd :: ts => .ok ([], ts)
    | ts => unexpected ts

/-- Reads items that are not indented. -/
def bareItems : Nat → List Token → Except Fault (List Node × List Token)
  | 0, ts => unexpected ts
  | n + 1, ts =>
    match ts with
    | .item :: ts => do
      let (i, ts) ← readUnless n true false [.item, .key, .value, .blockEnd] ts
      let (is, ts) ← bareItems n ts
      pure (i :: is, ts)
    | ts => .ok ([], ts)

def entries : Nat → List Token → Except Fault (List (Node × Node) × List Token)
  | 0, ts => unexpected ts
  | n + 1, ts =>
    match ts with
    | .key :: ts => do
      let (k, ts) ← readUnless n true true [.key, .value, .blockEnd] ts
      let (v, ts) ← valueAfter n true [.key, .value, .blockEnd] ts
      let (es, ts) ← entries n ts
      pure ((k, v) :: es, ts)
    | .blockEnd :: ts => .ok ([], ts)
    | ts => unexpected ts

/-- Reads the value of an entry, which may be missing. -/
def valueAfter : Nat → Bool → List Token → List Token → Except Fault (Node × List Token)
  | 0, _, _, ts => unexpected ts
  | n + 1, block, marks, ts =>
    match ts with
    | .value :: ts => readUnless n block block marks ts
    | ts => .ok (empty, ts)

/-- Reads the items of a sequence in brackets, where an entry is a mapping of its own. -/
def flowItems : Nat → Bool → List Token → Except Fault (List Node × List Token)
  | 0, _, ts => unexpected ts
  | n + 1, first, ts =>
    match ts with
    | .flowSequenceEnd :: ts => .ok ([], ts)
    | ts => do
      let ts ← afterComma first ts
      match ts with
      | .flowSequenceEnd :: ts => pure ([], ts)
      | .key :: ts =>
        let (k, ts) ← readUnless n false false [.value, .comma, .flowSequenceEnd] ts
        let (v, ts) ← valueAfter n false [.comma, .flowSequenceEnd] ts
        let (is, ts) ← flowItems n false ts
        pure (.mapping [(k, v)] :: is, ts)
      | ts =>
        let (i, ts) ← read n false false ts
        let (is, ts) ← flowItems n false ts
        pure (i :: is, ts)

/-- Reads the entries of a mapping in brackets, where a key without a value is an entry too. -/
def flowEntries : Nat → Bool → List Token → Except Fault (List (Node × Node) × List Token)
  | 0, _, ts => unexpected ts
  | n + 1, first, ts =>
    match ts with
    | .flowMappingEnd :: ts => .ok ([], ts)
    | ts => do
      let ts ← afterComma first ts
      match ts with
      | .flowMappingEnd :: ts => pure ([], ts)
      | .key :: ts =>
        let (k, ts) ← readUnless n false false [.value, .comma, .flowMappingEnd] ts
        let (v, ts) ← valueAfter n false [.comma, .flowMappingEnd] ts
        let (es, ts) ← flowEntries n false ts
        pure ((k, v) :: es, ts)
      | ts =>
        let (k, ts) ← read n false false ts
        let (es, ts) ← flowEntries n false ts
        pure ((k, empty) :: es, ts)

end

def document (ts : List Token) : Except Fault Node := do
  let steps := 4 * ts.length + 4
  let (root, ts) ← match ts with
    | [] => .ok (empty, [])
    | .documentStart :: ts => readUnlessEnd steps ts
    | ts => read steps true false ts
  match ts.dropWhile (· == .documentEnd) with
  | [] => pure root
  | ts => unexpected ts
where
  /-- Reads a node, or nothing in front of a mark or the end. -/
  readUnlessEnd (steps : Nat) (ts : List Token) : Except Fault (Node × List Token) :=
    if ts.isEmpty then .ok (empty, ts) else readUnless steps true false [.documentStart, .documentEnd] ts

/-- The entries of some mappings, those of the last one first. -/
def entriesOfAll : List Node → Option (List (Node × Node))
  | [] => some []
  | .mapping es :: is => (entriesOfAll is).map (· ++ es)
  | _ :: _ => none

/-- The entries that the value under the key `<<` adds to a mapping. -/
def entriesToAdd : Node → Option (List (Node × Node))
  | .mapping es => some es
  | .sequence is => entriesOfAll is
  | _ => none

/-- Whether a key stands for the entries of other mappings. -/
def isMerge : Node → Bool
  | .scalar "<<" true => true
  | _ => false

/-- A key as it is in its mapping, where an equals sign is a text. -/
def asKey : Node → Node
  | .scalar "=" true => .scalar "=" false
  | k => k

mutual

/-- A node with the entries under the key `<<` in their places. -/
def merge : Node → Node
  | .scalar text plain => .scalar text plain
  | .sequence is => .sequence (mergeItems is)
  | .mapping es =>
    match mergeEntries es with
    | some (front, own) => .mapping (front ++ own)
    | none => .unmergeable
  | .unmergeable => .unmergeable

/-- The items of a sequence with the entries under the key `<<` in their places. -/
def mergeItems : List Node → List Node
  | [] => []
  | i :: is => i.merge :: mergeItems is

/-- The entries that a mapping takes from others, and its own. -/
def mergeEntries : List (Node × Node) → Option (List (Node × Node) × List (Node × Node))
  | [] => some ([], [])
  | (k, v) :: es =>
    match mergeEntries es with
    | none => none
    | some (front, own) =>
      if k.isMerge then v.merge.entriesToAdd.map fun more => (more ++ front, own)
      else some (front, (k.merge.asKey, v.merge) :: own)

end

def scalarValue (text : String) (plain : Bool) : Except Fault Datum :=
  if plain then plainValue text else .ok (.text text)

def scalarFault : Node → List Fault
  | .scalar text plain => match scalarValue text plain with
    | .ok _ => []
    | .error f => [f]
  | _ => []

/-- The fault of a key, which has to be a scalar. -/
def keyFault : Node → List Fault
  | .scalar text plain => (Node.scalar text plain).scalarFault
  | _ => [.malformedFile]

/-- Joins lists level by level. -/
def joinLevels : List (List Fault) → List (List Fault) → List (List Fault)
  | [], bs => bs
  | as, [] => as
  | a :: as, b :: bs => (a ++ b) :: joinLevels as bs

mutual

/-- The faults of the members of a collection, level by level. -/
def faults : Node → List (List Fault)
  | .scalar _ _ => []
  | .sequence is => is.flatMap scalarFault :: itemFaults is
  | .mapping es => (es.flatMap fun (k, v) => k.keyFault ++ v.scalarFault) :: entryFaults es
  | .unmergeable => [[.malformedFile]]

/-- The faults inside the items of a sequence. -/
def itemFaults : List Node → List (List Fault)
  | [] => []
  | i :: is => joinLevels i.faults (itemFaults is)

/-- The faults inside the values of a mapping. -/
def entryFaults : List (Node × Node) → List (List Fault)
  | [] => []
  | (_, v) :: es => joinLevels v.faults (entryFaults es)

end

mutual

def toDatum : Node → Except Fault Datum
  | .scalar text plain => scalarValue text plain
  | .sequence is => do pure (.list (← toData is))
  | .mapping es => do pure (.mapping ((← toEntries es).foldl (fun all e => Datum.insertEntry all e.1 e.2) []))
  | .unmergeable => .error .malformedFile

def toData : List Node → Except Fault (List Datum)
  | [] => .ok []
  | i :: is => do
    let d ← toDatum i
    pure (d :: (← toData is))

def toEntries : List (Node × Node) → Except Fault (List (Datum × Datum))
  | [] => .ok []
  | (k, v) :: es => do
    let key ← toDatum k
    let d ← toDatum v
    pure ((key, d) :: (← toEntries es))

end

/-- The value of a document, or its first fault. -/
def value (root : Node) : Except Fault Datum :=
  let root := root.merge
  match root.faults.flatten with
  | [] => root.toDatum
  | f :: _ => .error f

end Node

/-- The value that a data file holds. -/
def read (s : String) : Except Fault Datum := do
  (← Node.document (tokens (String.ofList (Text.withMarks s.toList)))).value

end QasmCircuit.Yaml
