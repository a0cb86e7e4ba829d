import QasmCircuit.Draft

/-!
# Drafts as plain data

A draft is handed out as plain data that tells its parts apart: a part of a program is a mapping with the
name of its kind under `t`, a symbolic parameter one with its text under `sym`, a token one with its kind
under `tok`, and a real number one with its digits under `float`. A tree is a list that begins with its
label, and of a mapping only the values are kept. Plain data inside a tree has no such form.
-/

namespace QasmCircuit

namespace Datum

def record (fields : List (String × Datum)) : Datum := .mapping (fields.map fun (name, d) => (.text name, d))

mutual

/-- A plain value with its real numbers as digits. -/
def spelled : Datum → Datum
  | .real x => record [("float", .text (Decimal.text x))]
  | .list items => .list (spelledItems items)
  | .mapping entries => .mapping (spelledEntries entries)
  | d => d

/-- Plain values with their real numbers as digits. -/
def spelledItems : List Datum → List Datum
  | [] => []
  | d :: rest => d.spelled :: spelledItems rest

/-- Plain entries with their real numbers as digits. -/
def spelledEntries : List (Datum × Datum) → List (Datum × Datum)
  | [] => []
  | (key, d) :: rest => (key, d.spelled) :: spelledEntries rest

end

end Datum

namespace Tree

mutual

def toDatum : Tree → Except Fault Datum
  | .node label _ children => do pure (.list (.text label :: (← toData children)))
  | .token kind text _ _ => .ok (.record [("tok", .text kind), ("v", .text text)])
  | .datum _ => .error .missingPart

def toData : List Tree → Except Fault (List Datum)
  | [] => .ok []
  | t :: rest => do pure ((← t.toDatum) :: (← toData rest))

end

end Tree

namespace Draft

mutual

def toDatum : Draft → Except Fault Datum
  | .value d => .ok d.spelled
  | .list items | .tuple items => do pure (.list (← toData items))
  | .mapping entries => do pure (.list (← valuesToData entries))
  | .tree (.datum .null) => .ok .null
  | .tree t => t.toDatum
  | .node .symbolic fields => do pure (.mapping (← fieldsToData "sym" fields))
  | .node kind fields => do pure (.mapping ((.text "t", .text kind.title) :: (← fieldsToData "text" fields)))

def toData : List Draft → Except Fault (List Datum)
  | [] => .ok []
  | d :: rest => do pure ((← d.toDatum) :: (← toData rest))

/-- The values of some entries as plain data. -/
def valuesToData : List (Datum × Draft) → Except Fault (List Datum)
  | [] => .ok []
  | (_, d) :: rest => do pure ((← d.toDatum) :: (← valuesToData rest))

/-- Some fields as plain data, where a field for a text gets a name of its own. -/
def fieldsToData (text : String) : List (String × Draft) → Except Fault (List (Datum × Datum))
  | [] => .ok []
  | (name, d) :: rest => do
    let value ← d.toDatum
    pure ((.text (if name = "text" then text else name), value) :: (← fieldsToData text rest))

end

end Draft

end QasmCircuit
