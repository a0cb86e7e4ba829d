import QasmCircuit.Program.Render
import QasmCircuit.Proofs.Expr.Real

/-!
# What the text of a program tells

A program carries the places of its statements and the signs of its zeros, and its text shows neither.
`Program.unplaced` leaves the places out, and `Program.canonical` both. The canonical form says everything
about the text.

> `Program.render_canonical`: a program and its canonical form have the same text, or the same fault.
-/

namespace QasmCircuit

/-- A reference without its place. -/
def Ref.unplaced (r : Ref) : Ref := { r with position := .origin }

/-- A value with a negative zero read as zero. -/
def Datum.plain : Datum → Datum
  | .real x => .real (Decimal.plain x)
  | d => d

namespace Term

/-- A term without places. -/
def unplaced : Term → Term
  | .ref r => .ref r.unplaced
  | .symbolic text expr => .symbolic text expr.unplaced
  | .value d => .value d

/-- A term without places and with negative zeros read as zeros. -/
def canonical : Term → Term
  | .ref r => .ref r.unplaced
  | .symbolic text expr => .symbolic text expr.unplaced
  | .value d => .value d.plain

end Term

namespace Node

mutual

/-- A statement without its place, and with a change of its terms. -/
def change (f : Term → Term) : Node → Node
  | .call name _ params operands guard => .call name .origin (params.map f) (operands.map f) guard
  | .primitive op first second guard _ => .primitive op (first.map f) (second.map f) guard .origin
  | .measure qubit clbit _ guard => .measure (f qubit) (f clbit) .origin guard
  | .barrier _ operands => .barrier .origin (operands.map f)
  | .comment text _ => .comment text .origin
  | .includes path _ => .includes path .origin
  | .gate name _ params args body => .gate name .origin params args (changeAll f body)
  | .term t => .term (f t)

/-- Statements without their places, and with a change of their terms. -/
def changeAll (f : Term → Term) : List Node → List Node
  | [] => []
  | n :: rest => n.change f :: changeAll f rest

end

theorem changeAll_eq (f : Term → Term) (ns : List Node) : changeAll f ns = ns.map (change f) := by
  induction ns with
  | nil => rfl
  | cons n rest ih => rw [changeAll, ih, List.map_cons]

/-- A statement without places. -/
def unplaced (n : Node) : Node := n.change Term.unplaced

/-- A statement without places and with negative zeros read as zeros. -/
def canonical (n : Node) : Node := n.change Term.canonical

end Node

/-- A declaration without places. -/
def GateDef.unplaced (g : GateDef) : GateDef :=
  { g with position := .origin, body := g.body.map Node.unplaced }

/-- A declaration without places and with negative zeros read as zeros. -/
def GateDef.canonical (g : GateDef) : GateDef :=
  { g with position := .origin, body := g.body.map Node.canonical }

/-- An include directive without its place. -/
def Include.unplaced (i : Include) : Include := { i with position := .origin }

namespace Program

/-- A program without places. -/
def unplaced (p : Program) : Program :=
  { p with
    includes := p.includes.map Include.unplaced
    gates := p.gates.map GateDef.unplaced
    body := p.body.map Node.unplaced }

/-- A program without places and with negative zeros read as zeros. -/
def canonical (p : Program) : Program :=
  { p with
    includes := p.includes.map Include.unplaced
    gates := p.gates.map GateDef.canonical
    body := p.body.map Node.canonical }

theorem unplaced_eq_iff {p q : Program} : p.unplaced = q.unplaced ↔
    p.version = q.version ∧ p.includes.map Include.unplaced = q.includes.map Include.unplaced ∧
      p.qregs = q.qregs ∧ p.cregs = q.cregs ∧ p.gates.map GateDef.unplaced = q.gates.map GateDef.unplaced ∧
      p.body.map Node.unplaced = q.body.map Node.unplaced := by
  rw [unplaced, unplaced, Program.mk.injEq]

theorem unplaced_eq_canonical_iff {p q : Program} : p.unplaced = q.canonical ↔
    p.version = q.version ∧ p.includes.map Include.unplaced = q.includes.map Include.unplaced ∧
      p.qregs = q.qregs ∧ p.cregs = q.cregs ∧ p.gates.map GateDef.unplaced = q.gates.map GateDef.canonical ∧
      p.body.map Node.unplaced = q.body.map Node.canonical := by
  rw [unplaced, canonical, Program.mk.injEq]

end Program

/-! ## Canonical forms without places -/

mutual

theorem Tree.unplaced_unplaced : (t : Tree) → t.unplaced.unplaced = t.unplaced
  | .node label p children => by rw [Tree.unplaced, Tree.unplaced, Tree.unplacedAll_unplacedAll children]
  | .token kind text p q => rfl
  | .datum d => rfl

theorem Tree.unplacedAll_unplacedAll : (ts : List Tree) → unplacedAll (unplacedAll ts) = unplacedAll ts
  | [] => rfl
  | t :: rest => by
    rw [unplacedAll, unplacedAll, Tree.unplaced_unplaced t, Tree.unplacedAll_unplacedAll rest]

end

theorem Term.canonical_unplaced (t : Term) : t.unplaced.canonical = t.canonical := by
  cases t with
  | symbolic text expr => rw [Term.unplaced, Term.canonical, Tree.unplaced_unplaced, Term.canonical]
  | _ => rfl

theorem Term.canonical_canonical (t : Term) : t.canonical.canonical = t.canonical := by
  cases t with
  | ref r => rfl
  | symbolic text expr => rw [Term.canonical, Term.canonical, Tree.unplaced_unplaced]
  | value d => cases d <;> simp only [Term.canonical, Datum.plain, Decimal.plain_plain]

namespace Node

theorem map_map_change {f g : Term → Term} (h : ∀ t, g (f t) = g t) (ts : List Term) : (ts.map f).map g = ts.map g := by
  rw [List.map_map]
  exact List.map_congr_left fun t _ => h t

mutual

/-- A change that goes on from another one does not need it. -/
theorem change_change {f g : Term → Term} (h : ∀ t, g (f t) = g t) : (n : Node) → (n.change f).change g = n.change g
  | .call name p params operands guard => by simp only [change, map_map_change h]
  | .primitive op first second guard p => by simp only [change, map_map_change h]
  | .measure qubit clbit p guard => by simp only [change, h]
  | .barrier p operands => by simp only [change, map_map_change h]
  | .comment text p => rfl
  | .includes path p => rfl
  | .gate name p params args body => by simp only [change, changeAll_changeAll h body]
  | .term t => by simp only [change, h]

theorem changeAll_changeAll {f g : Term → Term} (h : ∀ t, g (f t) = g t) :
    (ns : List Node) → changeAll g (changeAll f ns) = changeAll g ns
  | [] => rfl
  | n :: rest => by simp only [changeAll, change_change h n, changeAll_changeAll h rest]

end

theorem canonical_unplaced (n : Node) : n.unplaced.canonical = n.canonical :=
  change_change Term.canonical_unplaced n

theorem canonical_canonical (n : Node) : n.canonical.canonical = n.canonical :=
  change_change Term.canonical_canonical n

end Node

/-- A form that goes on from another one tells lists apart only where that one does. -/
theorem map_eq_of_map_eq {α : Type} {u c : α → α} (hu : ∀ a, c (u a) = c a) (hc : ∀ a, c (c a) = c a)
    {as bs : List α} (h : as.map u = bs.map c) : as.map c = bs.map c := by
  have hmap := congrArg (List.map c) h
  rwa [List.map_map, List.map_map, show c ∘ u = c from funext hu, show c ∘ c = c from funext hc] at hmap

namespace GateDef

theorem canonical_unplaced (g : GateDef) : g.unplaced.canonical = g.canonical := by
  simp only [GateDef.unplaced, GateDef.canonical, List.map_map, Function.comp_def, Node.canonical_unplaced]

theorem canonical_canonical (g : GateDef) : g.canonical.canonical = g.canonical := by
  simp only [GateDef.canonical, List.map_map, Function.comp_def, Node.canonical_canonical]

end GateDef

/-- Programs that are the same up to places have the same canonical form. -/
theorem Program.canonical_eq_of_unplaced {p q : Program} (h : p.unplaced = q.canonical) :
    p.canonical = q.canonical := by
  obtain ⟨hversion, hincludes, hqregs, hcregs, hgates, hbody⟩ := unplaced_eq_canonical_iff.mp h
  rw [canonical, canonical, Program.mk.injEq]
  exact ⟨hversion, hincludes, hqregs, hcregs,
    map_eq_of_map_eq GateDef.canonical_unplaced GateDef.canonical_canonical hgates,
    map_eq_of_map_eq Node.canonical_unplaced Node.canonical_canonical hbody⟩

/-! ## The text of canonical forms -/

theorem mapM_map_of_eq {α β : Type} {f : α → α} {g : α → Except Fault β} (h : ∀ a, g (f a) = g a)
    (as : List α) : (as.map f).mapM g = as.mapM g := by
  rw [List.mapM_map]
  exact congrArg (as.mapM ·) (funext h)

namespace Term

theorem realText_plain (x : Float) : realText (Decimal.plain x) = realText x := by
  have hplain : ∀ y, (if y == 0.0 then 0.0 else y) = Decimal.plain y := fun _ => rfl
  unfold realText
  rw [Decimal.isFinite_plain, hplain, hplain, Decimal.plain_plain]
  split
  · rfl
  · next h =>
    have hzero : ¬(x == 0.0) := fun hz => h (Decimal.isFinite_of_beq_zero hz)
    rw [Decimal.plain, if_neg hzero]

theorem paramText_canonical (t : Term) : t.canonical.paramText = t.paramText := by
  cases t with
  | value d => cases d <;> first | rfl | exact realText_plain _
  | _ => rfl

theorem render_canonical (t : Term) : t.canonical.render = t.render := by
  cases t with
  | value d => cases d <;> rfl
  | _ => rfl

end Term

theorem callText_canonical (name : String) (params operands : List Term) :
    callText name (params.map Term.canonical) (operands.map Term.canonical) = callText name params operands := by
  unfold callText
  rw [mapM_map_of_eq Term.render_canonical, mapM_map_of_eq Term.paramText_canonical]

namespace Node

theorem primitiveParams_map (f : Term → Term) (op : String) (first : List Term) :
    primitiveParams op (first.map f) = (primitiveParams op first).map f := by
  unfold primitiveParams
  split <;> rfl

theorem primitiveOperands_map (f : Term → Term) (op : String) (first second : List Term) :
    primitiveOperands op (first.map f) (second.map f) = (primitiveOperands op first second).map f := by
  unfold primitiveOperands
  split
  · rw [List.map_append]
  · rfl

theorem isSelfTerminated_canonical (n : Node) : n.canonical.isSelfTerminated = n.isSelfTerminated := by
  cases n <;> rfl

mutual

theorem render_canonical : (n : Node) → n.canonical.render = n.render
  | .call name p params operands guard => by
    simp only [canonical, change, render, callText_canonical]
  | .primitive op first second guard p => by
    simp only [canonical, change, render, primitiveParams_map, primitiveOperands_map, callText_canonical]
  | .measure qubit clbit p guard => by simp only [canonical, change, render, Term.render_canonical]
  | .barrier p operands => by
    simp only [canonical, change, render, mapM_map_of_eq Term.render_canonical]
  | .comment text p => rfl
  | .includes path p => rfl
  | .gate name p params args body => by simp only [canonical, change, render, bodyLines_changeAll body]
  | .term t => by simp only [canonical, change, render, Term.render_canonical]

theorem bodyLines_changeAll : (ns : List Node) → bodyLines (changeAll Term.canonical ns) = bodyLines ns
  | [] => rfl
  | n :: rest => by
    have hrender := render_canonical n
    have hself := isSelfTerminated_canonical n
    rw [canonical] at hrender hself
    simp only [changeAll, bodyLines, hrender, hself, bodyLines_changeAll rest]

end

theorem statementLine_canonical (n : Node) : n.canonical.statementLine = n.statementLine := by
  simp only [statementLine, render_canonical, isSelfTerminated_canonical]

end Node

theorem GateDef.render_canonical (g : GateDef) : g.canonical.render = g.render := by
  have hnode : g.canonical.toNode = g.toNode.canonical := by
    simp only [GateDef.toNode, GateDef.canonical, Node.canonical, Node.change, Node.changeAll_eq]
    rfl
  rw [GateDef.render, hnode, Node.render_canonical, GateDef.render]

/-- A program and its canonical form have the same text, or the same fault. -/
theorem Program.render_canonical (p : Program) : p.canonical.render = p.render := by
  unfold Program.render Program.canonical
  dsimp only
  rw [mapM_map_of_eq GateDef.render_canonical, mapM_map_of_eq Node.statementLine_canonical, List.map_map]
  rfl

end QasmCircuit
