import QasmCircuit.Draft
import QasmCircuit.Program

/-!
# Programs as drafts

Every program, and every part of one, can be handed on as a draft.
-/

namespace QasmCircuit

def Position.toFields (p : Position) : List (String × Draft) :=
  [("line", .value (.int p.line)), ("col", .value (.int p.col))]

def Ref.toDraft (r : Ref) : Draft :=
  let index := (r.index.map fun i => Draft.value (.int i)).getD .null
  match r.kind with
  | .quantum => .node .qubit ([("reg", .text r.name), ("idx", index)] ++ r.position.toFields)
  | .classical => .node .clbit ([("reg", .text r.name), ("idx", index)] ++ r.position.toFields)
  | .primitive => .node .operand ([("identifier", .text r.name), ("index", index)] ++ r.position.toFields)

def Term.toDraft : Term → Draft
  | .ref r => r.toDraft
  | .symbolic text expr => .node .symbolic [("text", .text text), ("expr", .tree expr)]
  | .value d => .value d

def Guard.toDraft : Option Guard → Draft
  | none => .null
  | some g => .tuple [.text g.register, .value (.int g.value)]

def Term.listToDraft (ts : List Term) : Draft := .list (ts.map Term.toDraft)

def Draft.ofNames (names : List String) : Draft := .list (names.map .text)

def Include.toDraft (i : Include) : Draft := .node .includes ([("path", .text i.path)] ++ i.position.toFields)

mutual

def Node.toDraft : Node → Draft
  | .call name p params operands guard =>
    .node .call ([("name", .text name)] ++ p.toFields ++ [("params", Term.listToDraft params),
      ("qargs", Term.listToDraft operands), ("condition", Guard.toDraft guard)])
  | .primitive op first second guard p =>
    .node .primitive ([("op", .text op), ("arg", Term.listToDraft first), ("arg2", Term.listToDraft second),
      ("condition", Guard.toDraft guard)] ++ p.toFields)
  | .measure qubit clbit p guard =>
    .node .measure ([("q", qubit.toDraft), ("c", clbit.toDraft)] ++ p.toFields ++ [("condition", Guard.toDraft guard)])
  | .barrier p operands => .node .barrier (p.toFields ++ [("qargs", Term.listToDraft operands)])
  | .comment text p => .node .comment ([("text", .text text)] ++ p.toFields)
  | .includes path p => Include.toDraft ⟨path, p⟩
  | .gate name p params args body =>
    .node .gate ([("name", .text name)] ++ p.toFields ++ [("params", Draft.ofNames params),
      ("qargs", Draft.ofNames args), ("body", .list (Node.toDrafts body))])
  | .term t => t.toDraft

def Node.toDrafts : List Node → List Draft
  | [] => []
  | n :: rest => n.toDraft :: Node.toDrafts rest

end

def Draft.ofRegisters (regs : List (String × Int)) : Draft :=
  .list (regs.map fun (name, size) => .tuple [.text name, .value (.int size)])

def Program.toDraft (p : Program) : Draft :=
  .node .program [("version", .text p.version), ("includes", .list (p.includes.map Include.toDraft)),
    ("qregs", .ofRegisters p.qregs), ("cregs", .ofRegisters p.cregs),
    ("gate_defs", .mapping (p.gates.map fun g => (.text g.name, g.toNode.toDraft))),
    ("body", .list (Node.toDrafts p.body))]

end QasmCircuit
