import QasmCircuit.Proofs.Lowering.Condition

/-!
# What a program comes to

The instructions of a program once all calls of declared gates are replaced by their bodies. A declared gate calls
gates that were declared before it, so that the recursion is on the list of declarations, with the latest one first
(`Program.expansion?`). Whatever cannot be brought to a circuit comes to nothing, and `Program.Refusal` lists the
reasons.
-/

namespace QasmCircuit

open Outcome

variable {lib : Library} {name code : String}

/-! ## Calls of declared gates -/

/-- The parameters of a gate, bound to some values. -/
def GateDef.env (g : GateDef) (values : List Float) : Tree.Env :=
  (g.params.zip values).reverse.map fun b => (b.1, .real b.2)

/-- What a statement in the body of a gate comes to, with the parameters and the arguments of the gate bound. -/
def Effect.inside? (home : CircuitId) (call : String → List Float → List Bit → Option (List Instruction))
    (env : Tree.Env) (formals : List (String × Bit)) : Effect → Option (List Instruction)
  | .apply name params targets => do
    let values ← (params.mapM (Term.resolve env)).toOption
    let bits ← targets.mapM fun t => formals.lookup t.1
    call name values bits
  | .barrier targets => do
    let bits ← targets.mapM fun t => formals.lookup t.1
    if Bit.distinct bits then some [.fence home bits] else none
  | .measure _ _ => none

namespace Program

/-- What the application of a gate to some bits comes to. The declared gates are given with the latest one first. -/
def expansion? (lib : Library) (home : CircuitId) :
    List GateDef → String → List Float → List Bit → Option (List Instruction)
  | [], name, values, bits => do
    let f ← lib.find? name
    if values.all Float.isFinite then some [.gate home f values bits] else none
  | g :: earlier, name, values, bits =>
    if g.name = name then
      if isIdentifier name then do
        let parts ← g.body.mapM fun n =>
          n.effect?.bind (Effect.inside? home (expansion? lib home earlier) (g.env values) (g.args.zip bits))
        some parts.flatten
      else none
    else expansion? lib home earlier name values bits

variable {home : CircuitId} {gates : List GateDef}

theorem expansion?_of_forall_ne (h : ∀ g ∈ gates, g.name ≠ name) (more : List GateDef) :
    expansion? lib home (gates ++ more) name = expansion? lib home more name := by
  induction gates with
  | nil => rfl
  | cons g gates ih =>
    rw [List.forall_mem_cons] at h
    funext values bits
    rw [List.cons_append, expansion?, if_neg h.1, ih h.2]

end Program

/-! ## Statements of a program -/

/-- An instruction under a condition, if there is one. -/
def Instruction.under (guard : Option Condition) (x : Instruction) : Instruction :=
  match guard with
  | none => x
  | some g => x.guarded g

/-- What a statement on registers comes to. Its rows are applied one after the other. -/
def Effect.outside? (lib : Library) (home : CircuitId) (regs : List Register) (gates : List GateDef)
    (guard : Option Condition) : Effect → Option (List Instruction)
  | .apply name params targets => do
    let values ← (params.mapM (Term.resolve [])).toOption
    let args ← targets.mapM (Target.operand? regs)
    let rows ← rows? args
    let parts ← rows.mapM (Program.expansion? lib home gates.reverse name values)
    some (parts.flatten.map (Instruction.under guard))
  | .barrier targets => do
    let args ← targets.mapM (Target.operand? regs)
    if args.all Argument.isListable then some [.fence home (args.flatMap Argument.bits)] else none
  | .measure qubit clbit => do
    let q ← qubit.operand? regs
    let c ← clbit.operand? regs
    let rows ← rows? [q, c]
    some ((rows.map (.reading home)).map (Instruction.under guard))

/-- The condition of a guard, with the register that it names. -/
def Guard.condition? (regs : List Register) (g : Guard) : Option Condition :=
  (regs.find? fun r => r.name == g.register).map fun r => (r, g.value)

/-- What a statement of a program comes to. -/
def Node.expansion? (lib : Library) (home : CircuitId) (regs : List Register) (gates : List GateDef) (n : Node) :
    Option (List Instruction) := do
  let e ← n.effect?
  let guard ← (Program.guardOf? n).mapM (Guard.condition? regs)
  e.outside? lib home regs gates guard

def Program.instructions? (lib : Library) (home : CircuitId) (regs : List Register) (p : Program) :
    Option (List Instruction) := do
  let parts ← p.body.mapM (Node.expansion? lib home regs p.gates)
  some parts.flatten

/-! ## What stands in the way -/

namespace Program

variable {p : Program} {problem : Problem}

/-- A statement is run, with some parameters bound: one of the program itself, or one in the body of a gate that such a
statement calls. -/
inductive Runs (p : Program) : Node → Tree.Env → Prop
  | outside {n : Node} (hn : n ∈ p.body) : Runs p n []
  | inside {n m : Node} {env : Tree.Env} {name : String} {params : List Term} {targets : List Target} {g : GateDef}
      {values : List Float} (hn : Runs p n env) (he : n.effect? = some (.apply name params targets))
      (hg : findGate? p.gates name = some g) (hvalues : params.mapM (Term.resolve env) = .ok values)
      (hm : m ∈ g.body) : Runs p m (g.env values)

/-- A declared gate is called with some values for its parameters. -/
def Calls (p : Program) (g : GateDef) (values : List Float) : Prop :=
  ∃ n env name params targets, p.Runs n env ∧ n.effect? = some (.apply name params targets) ∧
    findGate? p.gates name = some g ∧ params.mapM (Term.resolve env) = .ok values

theorem Calls.runs {g : GateDef} {values : List Float} (h : p.Calls g values) {n : Node} (hn : n ∈ g.body) :
    p.Runs n (g.env values) := by
  obtain ⟨m, env, name, params, targets, hm, he, hg, hvalues⟩ := h
  exact .inside hm he hg hvalues hn

/-- Whether a name starts with a lower-case letter. -/
def startsLower (name : String) : Bool := name.toList.head?.any isLower

theorem isIdentifier_of_isWord (h : Lexeme.isWord name) : isIdentifier name = startsLower name := by
  unfold Lexeme.isWord at h
  unfold isIdentifier startsLower
  cases hname : name.toList with
  | nil =>
    rw [hname] at h
    cases h
  | cons c cs =>
    rw [hname] at h
    have hall : (cs.all fun d => d.isAlphanum || d = '_') := (Bool.and_eq_true_iff.mp h).2
    have hlast : cs.getLast? ≠ some '\n' := fun hl =>
      absurd (List.all_eq_true.mp hall _ (List.mem_of_getLast? hl)) (by decide)
    dsimp only
    rw [if_neg hlast, hall, Bool.and_true]
    rfl

/-- The problems that a checked program can still have, with their codes. -/
inductive Refusal (lib : Library) (p : Program) : String → Problem → Prop
  | register {r : String × Int} (hr : r ∈ p.qregs ++ p.cregs) (hname : startsLower r.1 = false) :
      Refusal lib p "E103" (.register (.invalidName (Datum.text r.1).shown))
  | gate {g : GateDef} {values : List Float} (hg : p.Calls g values) (hname : startsLower g.name = false) :
      Refusal lib p "E302" (.semantic (.invalidName (Datum.text g.name).shown))
  | parameter {n : Node} {env : Tree.Env} {f : Family} {params : List Term} {targets : List Target}
      {values : List Float} {x : Float} (hn : p.Runs n env) (he : n.effect? = some (.apply f.name params targets))
      (hf : lib.find? f.name = some f) (hvalues : params.mapM (Term.resolve env) = .ok values) (hx : x ∈ values)
      (hinfinite : x.isFinite = false) : Refusal lib p "E302" (.semantic (.paramKind f.name (Decimal.text x)))
  | expression {n : Node} {env : Tree.Env} {name : String} {params : List Term} {targets : List Target} {e : Expr}
      {reason : ExpressionProblem} (hn : p.Runs n env) (he : n.effect? = some (.apply name params targets))
      (hparam : .symbolic e.text e.toTree ∈ params) (hvalue : e.value? env = none) (hreason : reason.IsUndefined) :
      Refusal lib p "E301" (.expression reason)
  | barrier {g : GateDef} {values : List Float} {n : Node} {targets : List Target} (hg : p.Calls g values)
      (hn : n ∈ g.body) (he : n.effect? = some (.barrier targets)) (hrepeated : ¬ targets.Nodup) :
      Refusal lib p "E304" (.semantic (.actsTwice "barrier"))

/-- A barrier of a program names a register with too many qubits to list them. -/
def HasLongBarrier (p : Program) : Prop :=
  ∃ n ∈ p.body, ∃ targets name size, n.effect? = some (.barrier targets) ∧ (name, none) ∈ targets ∧
    p.qregs.lookup name = some size ∧ (Register.lengthLimit : Int) ≤ size

/-- A fault that a checked program can still have. -/
def Refuses (lib : Library) (p : Program) (e : Fault) : Prop :=
  (∃ code problem position cause, e = .problem problem position cause ∧ problem.code = code ∧
    Refusal lib p code problem) ∨ e = .tooLarge ∧ p.HasLongBarrier

theorem Refusal.code_eq (h : Refusal lib p code problem) : problem.code = code := by
  cases h with
  | register => exact (by decide : "E10" ++ toString 3 = "E103")
  | expression => exact (by decide : "E30" ++ toString 1 = "E301")
  | barrier => exact (by decide : "E30" ++ toString 4 = "E304")
  | _ => exact (by decide : "E30" ++ toString 2 = "E302")

theorem Refusal.refuses (h : Refusal lib p code problem) (position : Position)
    (cause : Option String) : Refuses lib p (.problem problem position cause) :=
  .inl ⟨code, problem, position, cause, rfl, h.code_eq, h⟩

theorem Refuses.relocate {e : Fault} (h : Refuses lib p e) {position : Position} (hposition : position.isValid) :
    Refuses lib p (e.relocate position) := by
  obtain ⟨code, problem, place, cause, rfl, -, hrefusal⟩ | ⟨rfl, hlong⟩ := h
  case inr => exact .inr ⟨rfl, hlong⟩
  unfold Fault.relocate
  dsimp only
  by_cases hplace : place = .origin
  · rw [if_pos hplace, if_pos hposition]
    exact hrefusal.refuses _ _
  · rw [if_neg hplace]
    exact hrefusal.refuses _ _

end Program

end QasmCircuit
