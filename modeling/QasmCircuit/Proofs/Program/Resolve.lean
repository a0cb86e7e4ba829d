import QasmCircuit.Program.OfTree
import QasmCircuit.Proofs.Decimal.Literal
import QasmCircuit.Proofs.Outcome
import QasmCircuit.Proofs.Source.Spelling

/-!
# What a source statement resolves to

The reader of programs works on trees, and so it has to ask of every tree whether it has the shape that it
needs. The trees of spelled sources have that shape, and what is left of the reader are the questions about
names: which registers and gates are declared, and what the parameters of a gate are. `Resolves` says so
for each kind of statement, without trees, and the reader agrees with it (`Program.statement_iff`,
`Program.bodyStatement_iff`).

Declarations only add to what is known: what resolves goes on to do so (`Statement.Resolves.mono`).
-/

namespace QasmCircuit

open List

variable {lib : Library} {p : Program} {n : Node} {scope : Option Program.GateScope} {target : Source.Reference}

namespace Source

open Program (GateScope)

/-- The number that a word of digits spells. -/
def Word.value (w : Word) : Nat := Decimal.digitsValue w.text.toList

namespace Reference

def indexValue (r : Reference) : Option Int := r.index.map fun i => (i.value : Int)

/-- The operand of a program that a reference becomes. -/
def toRef (kind : RefKind) (r : Reference) : Ref := ⟨kind, r.name.text, r.indexValue, r.position.clamp⟩

/-- A reference to a declared register, or to a bit that it has. -/
def IsDeclared (regs : List (String × Int)) (r : Reference) : Prop :=
  ∃ size, regs.lookup r.name.text = some size ∧ ∀ i ∈ r.indexValue, i < size

/-- A reference to qubits: of a register, or in the body of a gate to an argument. -/
def IsQuantum (p : Program) (scope : Option GateScope) (r : Reference) : Prop :=
  match scope with
  | some g => r.name.text ∈ g.args ∧ r.indexValue = none
  | none => r.IsDeclared p.qregs

end Reference

def operandTerms (rs : List Reference) : List Term := rs.map fun r => .ref (r.toRef .quantum)

/-- The expressions in parentheses that may be missing. -/
def exprsOf (params : Option Params) : List Expr := (params.map Params.exprs).getD []

/-- The terms that expressions become. -/
def ParamsResolve (scope : Option GateScope) (es : List Expr) (ts : List Term) : Prop :=
  Forall₂ (fun e t => Program.parameter scope e.toTree = .ok t) es ts

/-- What the application of a gate becomes. -/
inductive Operation.Resolves (lib : Library) (p : Program) (scope : Option GateScope) :
    Operation → Node → Prop
  | unitary {position : Position} {theta phi lam : Expr} {target : Reference} {ts : List Term}
      (hparams : ParamsResolve scope [theta, phi, lam] ts) (htarget : target.IsQuantum p scope) :
      Resolves lib p scope (.unitary position theta phi lam target)
        (.primitive "U" ts [.ref (target.toRef .primitive)] none position.clamp)
  | controlledNot {position : Position} {control target : Reference}
      (hcontrol : control.IsQuantum p scope) (htarget : target.IsQuantum p scope) :
      Resolves lib p scope (.controlledNot position control target)
        (.primitive "CX" [.ref (control.toRef .primitive)] [.ref (target.toRef .primitive)] none position.clamp)
  | call {name : Word} {params : Option Params} {operands : List Reference} {ts : List Term}
      (hname : lib.contains name.text ∨ (findGate? p.gates name.text).isSome)
      (hparams : ParamsResolve scope (exprsOf params) ts) (hoperands : ∀ r ∈ operands, r.IsQuantum p scope) :
      Resolves lib p scope (.call name params operands)
        (.call name.text name.position.clamp ts (operandTerms operands) none)

/-- What an action becomes. -/
inductive Action.Resolves (lib : Library) (p : Program) : Action → Node → Prop
  | operation {op : Operation} {n : Node} (h : op.Resolves lib p none n) : Resolves lib p (.operation op) n
  | measure {position : Position} {qubit clbit : Reference} (hqubit : qubit.IsQuantum p none)
      (hclbit : clbit.IsDeclared p.cregs) :
      Resolves lib p (.measure position qubit clbit)
        (.measure (.ref (qubit.toRef .quantum)) (.ref (clbit.toRef .classical)) position.clamp none)

/-- What a statement becomes. -/
inductive Statement.Resolves (lib : Library) (p : Program) : Statement → Node → Prop
  | action {a : Action} {n : Node} (h : a.Resolves lib p n) : Resolves lib p (.action a) n
  | barrier {position : Position} {operands : List Reference} (h : ∀ r ∈ operands, r.IsQuantum p none) :
      Resolves lib p (.barrier position operands) (.barrier position.clamp (operandTerms operands))
  | guarded {position : Position} {register value : Word} {a : Action} {n : Node} {size : Int}
      (hregister : p.cregs.lookup register.text = some size) (hfits : Program.fits value.value size)
      (h : a.Resolves lib p n) :
      Resolves lib p (.guarded position register value a) (n.withGuard ⟨register.text, value.value⟩)

/-- What a statement of the body of a gate becomes. -/
inductive BodyStatement.Resolves (lib : Library) (p : Program) (g : GateScope) : BodyStatement → Node → Prop
  | operation {op : Operation} {n : Node} (h : op.Resolves lib p (some g) n) : Resolves lib p g (.operation op) n
  | barrier {position : Position} {operands : List Reference} (h : ∀ r ∈ operands, r.IsQuantum p (some g)) :
      Resolves lib p g (.barrier position operands) (.barrier position.clamp (operandTerms operands))

section

variable {q : Program}

theorem Operation.Resolves.transfer {op : Operation}
    (hquantum : ∀ r : Reference, r.IsQuantum p scope → r.IsQuantum q scope)
    (hgates : ∀ name, (findGate? p.gates name).isSome → (findGate? q.gates name).isSome)
    (h : op.Resolves lib p scope n) : op.Resolves lib q scope n := by
  cases h with
  | unitary hparams htarget => exact .unitary hparams (hquantum _ htarget)
  | controlledNot hcontrol htarget => exact .controlledNot (hquantum _ hcontrol) (hquantum _ htarget)
  | call hname hparams hoperands =>
    exact .call (hname.imp_right (hgates _)) hparams fun r hr => hquantum r (hoperands r hr)

variable {s : BodyStatement}

/-- The body of a gate uses no registers. -/
theorem BodyStatement.Resolves.of_gates {g : GateScope}
    (hgates : ∀ name, (findGate? p.gates name).isSome → (findGate? q.gates name).isSome)
    (h : s.Resolves lib p g n) : s.Resolves lib q g n := by
  cases h with
  | operation hop =>
    have hquantum : ∀ r : Reference, r.IsQuantum p (some g) → r.IsQuantum q (some g) := fun _ hr => hr
    exact .operation (hop.transfer hquantum hgates)
  | barrier hoperands => exact .barrier hoperands

theorem BodyStatement.Resolves.transfer {gates gates' : List GateDef} {g : GateScope}
    (hgates : ∀ name, (findGate? gates name).isSome → (findGate? gates' name).isSome)
    (h : s.Resolves lib { gates := gates } g n) : s.Resolves lib { gates := gates' } g n :=
  h.of_gates hgates

end

end Source

/-! ## The reader on trees of sources -/

namespace Program

open Source Outcome

variable {r : Reference} {position : Position} {size : Int} {ref : Ref} {name : Word} {keywords : List Keyword}
  {body : List BodyStatement}

theorem integer_word {w : Word} (h : Lexeme.isInteger w.text) : integer w.integer = .ok (w.value : Int) := by
  have hspelling : w.integer.spelling = .ok w.text := rfl
  unfold integer
  rw [hspelling]
  simp only [bind, Except.bind, Decimal.integer?_of_isInteger h]
  rfl

theorem reference_toTree (h : r.Spelled) : reference r.toTree = .ok (r.name.text, r.indexValue, r.position.clamp) := by
  obtain ⟨name, index⟩ := r
  cases index with
  | none => rfl
  | some i =>
    show (do
      let n ← some <$> integer i.integer
      pure (name.text, n, name.position.clamp)) = _
    rw [integer_word (h.2 i rfl)]
    rfl

theorem failAt_ne_ok {α : Type} {problem : Problem} {a : α} :
    (failAt problem position : Except Fault α) ≠ .ok a := fun h => nomatch h

theorem inRange_iff {problem : Int → Problem} {r : Ref} :
    inRange size problem r = .ok ref ↔ (∀ i ∈ r.index, i < size) ∧ r = ref := by
  unfold inRange
  split
  · next i hi =>
    by_cases hle : size ≤ i
    · rw [if_pos hle]
      exact ⟨fun h => absurd h failAt_ne_ok, fun h => absurd (h.1 i hi) (Int.not_lt.mpr hle)⟩
    · rw [if_neg hle, pure_eq_ok]
      refine ⟨fun h => ⟨?_, h⟩, fun h => h.2⟩
      intro j hj
      rw [hi, Option.mem_some_iff] at hj
      omega
  · next hi =>
    rw [pure_eq_ok, hi]
    exact ⟨fun h => ⟨fun i hnone => absurd hnone (by simp), h⟩, fun h => h.2⟩

variable {regs : List (String × Int)} {operands : List Reference} {a : Source.Action}

theorem isDeclared_iff (h : regs.lookup r.name.text = some size) :
    r.IsDeclared regs ↔ ∀ i ∈ r.indexValue, i < size := by
  constructor
  · rintro ⟨other, hother, hrange⟩
    rw [Option.some.inj (h.symm.trans hother)]
    exact hrange
  · exact fun hrange => ⟨size, h, hrange⟩

theorem not_isDeclared (h : regs.lookup r.name.text = none) : ¬ r.IsDeclared regs := by
  rintro ⟨size, hsize, -⟩
  exact absurd (h.symm.trans hsize) (by simp)

theorem quantumRef_iff (h : r.Spelled) :
    quantumRef p scope r.toTree = .ok ref ↔ r.IsQuantum p scope ∧ r.toRef .primitive = ref := by
  unfold quantumRef
  rw [reference_toTree h]
  simp only [bind, Except.bind]
  cases scope with
  | some g =>
    obtain ⟨name, index⟩ := r
    by_cases hmem : name.text ∈ g.args
    · cases index with
      | none =>
        simp [hmem, Reference.IsQuantum, Reference.indexValue, Reference.toRef, Reference.position, pure, Except.pure]
      | some i => simp [hmem, Reference.IsQuantum, Reference.indexValue, failAt_ne_ok]
    · simp [hmem, Reference.IsQuantum, failAt_ne_ok]
  | none =>
    unfold Reference.IsQuantum
    dsimp only
    cases hsize : p.qregs.lookup r.name.text with
    | none =>
      refine ⟨fun hok => ?_, fun hok => absurd hok.1 (not_isDeclared hsize)⟩
      dsimp only at hok
      split at hok <;> exact absurd hok failAt_ne_ok
    | some size =>
      rw [isDeclared_iff hsize]
      exact inRange_iff

theorem classicalSize_iff {name : String} : p.classicalSize name = .ok size ↔ p.cregs.lookup name = some size := by
  unfold classicalSize
  cases p.cregs.lookup name with
  | none =>
    dsimp only
    split <;> simp
  | some n => simp

theorem classicalRef_iff (h : r.Spelled) :
    classicalRef p r.toTree = .ok ref ↔ r.IsDeclared p.cregs ∧ r.toRef .classical = ref := by
  unfold classicalRef
  rw [reference_toTree h]
  simp only [bind, Except.bind]
  cases hsize : p.classicalSize r.name.text with
  | error problem =>
    have hnone : p.cregs.lookup r.name.text = none := by
      rw [Option.eq_none_iff_forall_ne_some]
      intro size hsome
      exact absurd (hsize.symm.trans (classicalSize_iff.mpr hsome)) (by simp)
    exact ⟨fun hok => absurd hok failAt_ne_ok, fun hok => absurd hok.1 (not_isDeclared hnone)⟩
  | ok size =>
    rw [isDeclared_iff (classicalSize_iff.mp hsize)]
    exact inRange_iff

theorem quantumRefs_iff {rs : List Reference} (h : ∀ r ∈ rs, r.Spelled) {refs : List Ref} :
    quantumRefs p scope (rs.map Reference.toTree) = .ok refs ↔
      (∀ r ∈ rs, r.IsQuantum p scope) ∧ rs.map (Reference.toRef .primitive) = refs := by
  have hnodes : (rs.map Reference.toTree).filter Tree.isNode = rs.map Reference.toTree :=
    filter_eq_self.mpr fun t ht => by
      obtain ⟨r, -, rfl⟩ := mem_map.mp ht
      rfl
  rw [quantumRefs, hnodes, mapM_map]
  exact mapM_eq_ok_iff_map fun r hr ref => quantumRef_iff (h r hr)

theorem operandTerms_map (rs : List Reference) :
    operandTerms (rs.map (Reference.toRef .primitive)) = Source.operandTerms rs := by
  rw [operandTerms, Source.operandTerms, map_map]
  rfl

/-! ## Operations -/

theorem parameters_iff {es : List Expr} {ts : List Term} :
    (es.map Expr.toTree).mapM (parameter scope) = .ok ts ↔ ParamsResolve scope es ts := by
  rw [mapM_map]
  exact mapM_eq_ok

/-- The tree of an expression is a node with a label of its own. -/
theorem hasLabel_toTree (e : Expr) : e.toTree.hasLabel "qarg" = false ∧ e.toTree.isProper := by
  cases e with
  | binary p op left right => cases op <;> exact ⟨rfl, rfl⟩
  | _ => exact ⟨rfl, rfl⟩

theorem unitary_branch (p : Program) (scope : Option GateScope) (position : Position) (theta phi lam : Expr)
    (target : Reference) :
    unitary p scope (branch "u_op" position [theta.toTree, phi.toTree, lam.toTree, target.toTree]) = (do
      let params ← [theta.toTree, phi.toTree, lam.toTree].mapM (parameter scope)
      let r ← quantumRef p scope target.toTree
      pure (.primitive "U" params [.ref r] none position.clamp)) := by
  have hlabel : target.toTree.hasLabel "qarg" := rfl
  have hoperand : (branch "u_op" position [theta.toTree, phi.toTree, lam.toTree, target.toTree]).children.filter
      (Tree.hasLabel "qarg") = [target.toTree] := by
    simp [branch, Tree.children, hasLabel_toTree, hlabel]
  have hparams : (branch "u_op" position [theta.toTree, phi.toTree, lam.toTree, target.toTree]).children.filter
      (fun c => !c.hasLabel "qarg") = [theta.toTree, phi.toTree, lam.toTree] := by
    simp [branch, Tree.children, hasLabel_toTree, hlabel]
  unfold unitary
  rw [hoperand, hparams]
  rfl

theorem unitary_iff {theta phi lam : Expr} (htarget : target.Spelled) :
    unitary p scope (branch "u_op" position [theta.toTree, phi.toTree, lam.toTree, target.toTree]) = .ok n ↔
      ∃ ts, ParamsResolve scope [theta, phi, lam] ts ∧ target.IsQuantum p scope ∧
        Node.primitive "U" ts [.ref (target.toRef .primitive)] none position.clamp = n := by
  rw [unitary_branch]
  simp only [bind_eq_ok, pure_eq_ok, quantumRef_iff htarget, ← parameters_iff]
  constructor
  · rintro ⟨ts, hts, ref, ⟨hq, rfl⟩, rfl⟩
    exact ⟨ts, hts, hq, rfl⟩
  · rintro ⟨ts, hts, hq, rfl⟩
    exact ⟨ts, hts, _, ⟨hq, rfl⟩, rfl⟩

theorem controlledNot_iff {control : Reference} (hcontrol : control.Spelled) (htarget : target.Spelled) :
    controlledNot p scope (branch "cx_op" position [control.toTree, target.toTree]) = .ok n ↔
      control.IsQuantum p scope ∧ target.IsQuantum p scope ∧
        Node.primitive "CX" [.ref (control.toRef .primitive)] [.ref (target.toRef .primitive)] none
          position.clamp = n := by
  have hspelled : ∀ r ∈ [control, target], r.Spelled := by
    rw [forall_mem_cons, forall_mem_singleton]
    exact ⟨hcontrol, htarget⟩
  have hrefs := fun refs => @quantumRefs_iff p scope [control, target] hspelled refs
  rw [forall_mem_cons, forall_mem_singleton] at hrefs
  unfold controlledNot
  simp only [bind_eq_ok]
  constructor
  · rintro ⟨refs, hread, hn⟩
    obtain ⟨⟨hc, ht⟩, rfl⟩ := (hrefs refs).mp hread
    exact ⟨hc, ht, pure_eq_ok.mp hn⟩
  · rintro ⟨hc, ht, rfl⟩
    exact ⟨_, (hrefs _).mpr ⟨⟨hc, ht⟩, rfl⟩, rfl⟩

def callTree (name : Word) (params : Option Params) (operands : List Reference) : Tree :=
  branch "call" name.position (name.name :: (params.map Params.toTree).toList ++ [referencesTree operands])

theorem filter_isProper (es : List Expr) : (es.map Expr.toTree).filter Tree.isProper = es.map Expr.toTree :=
  filter_eq_self.mpr fun t ht => by
    obtain ⟨e, -, rfl⟩ := mem_map.mp ht
    exact (hasLabel_toTree e).2

theorem callParams_callTree (scope : Option GateScope) (name : Word) (params : Option Params)
    (operands : List Reference) : callParams scope (callTree name params operands) =
      ((exprsOf params).map Expr.toTree).mapM (parameter scope) := by
  match params with
  | none => rfl
  | some ⟨_, []⟩ => rfl
  | some ⟨_, e :: es⟩ => exact congrArg (·.mapM (parameter scope)) (filter_isProper (e :: es))

theorem call_callTree (lib : Library) (p : Program) (scope : Option GateScope) (name : Word) (params : Option Params)
    (operands : List Reference) : call lib p scope (callTree name params operands) =
      (if !(lib.contains name.text || (findGate? p.gates name.text).isSome) then
        failAt (.resolution (.unknownGate name.text)) name.position.clamp
      else do
        let ts ← ((exprsOf params).map Expr.toTree).mapM (parameter scope)
        let refs ← quantumRefs p scope (operands.map Reference.toTree)
        pure (.call name.text name.position.clamp ts (operandTerms refs) none)) := by
  rw [← callParams_callTree scope name params operands]
  cases params <;> rfl

theorem call_iff {params : Option Params} (hoperands : ∀ r ∈ operands, r.Spelled) :
    call lib p scope (callTree name params operands) = .ok n ↔
      (lib.contains name.text ∨ (findGate? p.gates name.text).isSome) ∧
      ∃ ts, ParamsResolve scope (exprsOf params) ts ∧ (∀ r ∈ operands, r.IsQuantum p scope) ∧
        Node.call name.text name.position.clamp ts (Source.operandTerms operands) none = n := by
  rw [call_callTree, ← Bool.or_eq_true]
  by_cases hknown : (lib.contains name.text || (findGate? p.gates name.text).isSome)
  · rw [hknown, if_neg (by decide)]
    simp only [bind_eq_ok, pure_eq_ok, parameters_iff, quantumRefs_iff hoperands, true_and]
    constructor
    · rintro ⟨ts, hts, refs, ⟨hq, rfl⟩, rfl⟩
      exact ⟨ts, hts, hq, by rw [operandTerms_map]⟩
    · rintro ⟨ts, hts, hq, rfl⟩
      exact ⟨ts, hts, _, ⟨hq, rfl⟩, by rw [operandTerms_map]⟩
  · rw [if_pos (by rw [Bool.eq_false_iff.mpr hknown]; rfl)]
    exact ⟨fun h => absurd h failAt_ne_ok, fun h => absurd h.1 hknown⟩

/-- The reader of operations agrees with what they resolve to. -/
theorem operation_iff {op : Source.Operation} (h : op.Spelled keywords) :
    operation lib p scope op.toTree = .ok n ↔ op.Resolves lib p scope n := by
  cases op with
  | unitary position theta phi lam target =>
    refine (unitary_iff h.2.2.2).trans ⟨?_, ?_⟩
    · rintro ⟨ts, hts, htarget, rfl⟩
      exact .unitary hts htarget
    · intro hop
      cases hop with
      | unitary hts htarget => exact ⟨_, hts, htarget, rfl⟩
  | controlledNot position control target =>
    refine (controlledNot_iff h.1 h.2).trans ⟨?_, ?_⟩
    · rintro ⟨hcontrol, htarget, rfl⟩
      exact .controlledNot hcontrol htarget
    · intro hop
      cases hop with
      | controlledNot hcontrol htarget => exact ⟨hcontrol, htarget, rfl⟩
  | call name params operands =>
    refine (call_iff h.2.2.2).trans ⟨?_, ?_⟩
    · rintro ⟨hname, ts, hts, hoperands, rfl⟩
      exact .call hname hts hoperands
    · intro hop
      cases hop with
      | call hname hts hoperands => exact ⟨hname, _, hts, hoperands, rfl⟩

/-! ## Statements -/

theorem measure_iff {qubit clbit : Reference} (hqubit : qubit.Spelled) (hclbit : clbit.Spelled) :
    measure p (branch "measure" position [qubit.toTree, clbit.toTree]) = .ok n ↔
      qubit.IsQuantum p none ∧ clbit.IsDeclared p.cregs ∧
        Node.measure (.ref (qubit.toRef .quantum)) (.ref (clbit.toRef .classical)) position.clamp none = n := by
  have hmeasure : measure p (branch "measure" position [qubit.toTree, clbit.toTree]) = (do
      let q ← quantumRef p none qubit.toTree
      let c ← classicalRef p clbit.toTree
      pure (.measure (.ref q.toQuantum) (.ref c) position.clamp none)) := rfl
  rw [hmeasure]
  simp only [bind_eq_ok, pure_eq_ok, quantumRef_iff hqubit, classicalRef_iff hclbit]
  constructor
  · rintro ⟨q, ⟨hq, rfl⟩, c, ⟨hc, rfl⟩, rfl⟩
    exact ⟨hq, hc, rfl⟩
  · rintro ⟨hq, hc, rfl⟩
    exact ⟨_, ⟨hq, rfl⟩, _, ⟨hc, rfl⟩, rfl⟩

theorem barrier_iff (h : ReferencesSpelled operands) : barrier p scope (barrierTree position operands) = .ok n ↔
      (∀ r ∈ operands, r.IsQuantum p scope) ∧ Node.barrier position.clamp (Source.operandTerms operands) = n := by
  have hbarrier : barrier p scope (barrierTree position operands) = (do
      let refs ← quantumRefs p scope (operands.map Reference.toTree)
      pure (.barrier position.clamp (operandTerms refs))) := rfl
  rw [hbarrier]
  simp only [bind_eq_ok, pure_eq_ok, quantumRefs_iff h.2]
  constructor
  · rintro ⟨refs, ⟨hq, rfl⟩, rfl⟩
    exact ⟨hq, by rw [operandTerms_map]⟩
  · rintro ⟨hq, rfl⟩
    exact ⟨_, ⟨hq, rfl⟩, by rw [operandTerms_map]⟩

/-- The reader of what stands behind a guard agrees with what it resolves to. -/
theorem action_iff (h : a.Spelled keywords) :
    (if a.toTree.hasLabel "measure" then measure p a.toTree else operation lib p none a.toTree) = .ok n ↔
      a.Resolves lib p n := by
  cases a with
  | operation op =>
    have hlabel : (Source.Action.operation op).toTree.hasLabel "measure" = false := rfl
    rw [hlabel, if_neg Bool.false_ne_true]
    refine (operation_iff h).trans ⟨.operation, ?_⟩
    intro ha
    cases ha with
    | operation hop => exact hop
  | measure position qubit clbit =>
    have hlabel : (Source.Action.measure position qubit clbit).toTree.hasLabel "measure" := rfl
    rw [hlabel, if_pos rfl]
    refine (measure_iff h.1 h.2).trans ⟨?_, ?_⟩
    · rintro ⟨hq, hc, rfl⟩
      exact .measure hq hc
    · intro ha
      cases ha with
      | measure hq hc => exact ⟨hq, hc, rfl⟩

/-- What is read for a guarded action, by what is known about the register of the guard. -/
def guardedBy (lib : Library) (p : Program) (register value : Word) (a : Source.Action) :
    Except Problem Int → Except Fault Node
  | .error problem => failAtToken problem register.name
  | .ok size => do
    let v ← integer value.integer
    if !fits v size then
      failAtToken (.modifier (.valueRange (toString v) register.text size.toNat)) register.name
    else
      (if a.toTree.hasLabel "measure" then measure p a.toTree else operation lib p none a.toTree) >>=
        fun m => pure (m.withGuard ⟨register.text, v⟩)

theorem guarded_branch (lib : Library) (p : Program) (position : Position) (register value : Word) (a : Source.Action) :
    guarded lib p (branch "if_stmt" position [register.name, value.integer, a.toTree]) =
      guardedBy lib p register value a (p.classicalSize register.text) := by
  cases a <;> rfl

theorem guarded_iff {register value : Word} (hvalue : Lexeme.isInteger value.text) (ha : a.Spelled keywords) :
    guarded lib p (branch "if_stmt" position [register.name, value.integer, a.toTree]) = .ok n ↔
      ∃ size m, p.cregs.lookup register.text = some size ∧ fits value.value size ∧
        a.Resolves lib p m ∧ m.withGuard ⟨register.text, value.value⟩ = n := by
  have hfail : ∀ {problem : Problem} {m : Node}, failAtToken problem register.name ≠ .ok m := by
    intro problem m h
    cases h
  rw [guarded_branch]
  cases hsize : p.classicalSize register.text with
  | error problem =>
    refine ⟨fun h => absurd h hfail, ?_⟩
    rintro ⟨size, m, hlookup, -⟩
    exact absurd (hsize.symm.trans (classicalSize_iff.mpr hlookup)) (by simp)
  | ok size =>
    have hlookup := classicalSize_iff.mp hsize
    unfold guardedBy
    rw [integer_word hvalue]
    by_cases hfits : fits value.value size
    · show (if !fits value.value size then _ else _) = Except.ok n ↔ _
      rw [if_neg (by rw [hfits]; decide), bind_eq_ok]
      simp only [action_iff ha, pure_eq_ok]
      constructor
      · rintro ⟨m, hm, rfl⟩
        exact ⟨size, m, hlookup, hfits, hm, rfl⟩
      · rintro ⟨_, m, -, -, hm, rfl⟩
        exact ⟨m, hm, rfl⟩
    · show (if !fits value.value size then _ else _) = Except.ok n ↔ _
      rw [if_pos (by rw [Bool.eq_false_iff.mpr hfits]; rfl)]
      refine ⟨fun h => absurd h hfail, ?_⟩
      rintro ⟨other, m, hother, hother', -⟩
      rw [Option.some.inj (hlookup.symm.trans hother)] at hfits
      exact absurd hother' hfits

theorem statement_action (lib : Library) (p : Program) (a : Source.Action) :
    statement lib p (Statement.action a).toTree =
      if a.toTree.hasLabel "measure" then measure p a.toTree else operation lib p none a.toTree := by
  cases a <;> rfl

/-- The reader of statements agrees with what they resolve to. -/
theorem statement_iff {s : Statement} (h : s.Spelled) : statement lib p s.toTree = .ok n ↔ s.Resolves lib p n := by
  cases s with
  | action a =>
    rw [statement_action]
    refine (action_iff h).trans ⟨.action, ?_⟩
    intro hs
    cases hs with
    | action ha => exact ha
  | barrier position operands =>
    refine (barrier_iff h).trans ⟨?_, ?_⟩
    · rintro ⟨hq, rfl⟩
      exact .barrier hq
    · intro hs
      cases hs with
      | barrier hq => exact ⟨hq, rfl⟩
  | guarded position register value a =>
    refine (guarded_iff h.2.1 h.2.2.1).trans ⟨?_, ?_⟩
    · rintro ⟨size, m, hregister, hfits, ha, rfl⟩
      exact .guarded hregister hfits ha
    · intro hs
      cases hs with
      | guarded hregister hfits ha => exact ⟨_, _, hregister, hfits, ha, rfl⟩

/-- The reader of statements of gates agrees with what they resolve to. -/
theorem bodyStatement_iff {g : GateScope} {s : BodyStatement} (h : s.Spelled keywords) :
    bodyStatement lib p g s.toTree = .ok n ↔ s.Resolves lib p g n := by
  cases s with
  | operation op =>
    refine (operation_iff h).trans ⟨.operation, ?_⟩
    intro hs
    cases hs with
    | operation hop => exact hop
  | barrier position operands =>
    refine (barrier_iff h).trans ⟨?_, ?_⟩
    · rintro ⟨hq, rfl⟩
      exact .barrier hq
    · intro hs
      cases hs with
      | barrier hq => exact ⟨hq, rfl⟩

/-! ## Declarations -/

theorem register_branch {size : Word} (hsize : Lexeme.isInteger size.text) (p : Program) (label : String)
    (position : Position) (name : Word) : register p label (branch label position [name.name, size.integer]) =
      (if (p.qregs.lookup name.text).isSome || (p.cregs.lookup name.text).isSome then
        failAtToken (.register (.duplicate name.text)) name.name
      else if (size.value : Int) ≤ 0 then failAtToken (.register (.noSize name.text)) name.name
      else pure (name.text, (size.value : Int))) := by
  have hregister : register p label (branch label position [name.name, size.integer]) = (do
      let n ← integer size.integer
      if (p.qregs.lookup name.text).isSome || (p.cregs.lookup name.text).isSome then
        failAtToken (.register (.duplicate name.text)) name.name
      else if n ≤ 0 then failAtToken (.register (.noSize name.text)) name.name
      else pure (name.text, n)) := rfl
  rw [hregister, integer_word hsize]
  rfl

theorem register_iff {label : String} {size : Word} (hsize : Lexeme.isInteger size.text) {r : String × Int} :
    register p label (branch label position [name.name, size.integer]) = .ok r ↔
      p.qregs.lookup name.text = none ∧ p.cregs.lookup name.text = none ∧ 0 < size.value ∧
        (name.text, (size.value : Int)) = r := by
  have hfail : ∀ {problem : Problem}, failAtToken problem name.name ≠ .ok r := fun h => nomatch h
  rw [register_branch hsize]
  by_cases hfree : p.qregs.lookup name.text = none ∧ p.cregs.lookup name.text = none
  · rw [if_neg (by rw [hfree.1, hfree.2]; decide)]
    by_cases hpos : 0 < size.value
    · rw [if_neg (by omega), pure_eq_ok]
      exact ⟨fun h => ⟨hfree.1, hfree.2, hpos, h⟩, fun h => h.2.2.2⟩
    · rw [if_pos (by omega)]
      exact ⟨fun h => absurd h hfail, fun h => absurd h.2.2.1 hpos⟩
  · rw [if_pos]
    · exact ⟨fun h => absurd h hfail, fun h => absurd ⟨h.1, h.2.1⟩ hfree⟩
    · rw [not_and_or, ← ne_eq, ← ne_eq, Option.ne_none_iff_isSome, Option.ne_none_iff_isSome] at hfree
      exact (Bool.or_eq_true ..).mpr hfree

theorem identifiersIn_names (ws : List Word) : identifiersIn (ws.map Word.name) = ws.map Word.text := by
  induction ws with
  | nil => rfl
  | cons w ws ih =>
    rw [map_cons, identifiersIn, ih]
    rfl

/-- The names in parentheses that may be missing. -/
def formalNames (params : Option Formals) : List String :=
  (params.map fun f => f.names.map Word.text).getD []

def gateTree (position : Position) (name : Word) (params : Option Formals) (args : List Word)
    (bodyPosition : Position) (body : List BodyStatement) : Tree :=
  branch "gate_decl" position (name.name :: (params.map Formals.toTree).toList ++
    [branch "gate_args" (wordsPosition args) [namesTree args],
      branch "gate_body" bodyPosition (body.map BodyStatement.toTree)])

theorem identifiers_namesTree (ws : List Word) : identifiers (namesTree ws) = ws.map Word.text :=
  identifiersIn_names ws

theorem identifiers_formals (f : Formals) : identifiers f.toTree = f.names.map Word.text := by
  obtain ⟨position, names⟩ := f
  cases names with
  | nil => rfl
  | cons w ws =>
    show identifiers (namesTree (w :: ws)) ++ [] = _
    rw [append_nil, identifiers_namesTree]

/-- What the statements of the body of a gate become, with some gates declared before it. -/
def BodyResolves (lib : Library) (gates : List GateDef) (g : GateScope) (body : List BodyStatement)
    (nodes : List Node) : Prop :=
  Forall₂ (fun s n => s.Resolves lib { gates := gates } g n) body nodes

theorem bodySpelled_forall (h : BodySpelled keywords body) : ∀ s ∈ body, ∃ keywords, s.Spelled keywords := by
  induction body generalizing keywords with
  | nil => exact forall_mem_nil _
  | cons s rest ih => exact forall_mem_cons.mpr ⟨⟨keywords, h.1⟩, ih h.2⟩

theorem body_iff {g : GateScope} (h : BodySpelled keywords body) {nodes : List Node} :
    ((body.map BodyStatement.toTree).filter Tree.isNode).mapM (bodyStatement lib p g) = .ok nodes ↔
      BodyResolves lib p.gates g body nodes := by
  have hgates : ∀ {s : BodyStatement} {n : Node}, s.Resolves lib p g n ↔ s.Resolves lib { gates := p.gates } g n :=
    have hknown : ∀ name, (findGate? p.gates name).isSome → (findGate? p.gates name).isSome :=
      fun _ h => h
    ⟨BodyStatement.Resolves.of_gates hknown, BodyStatement.Resolves.of_gates hknown⟩
  have hnodes : (body.map BodyStatement.toTree).filter Tree.isNode = body.map BodyStatement.toTree :=
    filter_eq_self.mpr fun t ht => by
      obtain ⟨s, -, rfl⟩ := mem_map.mp ht
      cases s <;> rfl
  rw [hnodes, mapM_map, mapM_eq_ok]
  unfold BodyResolves
  clear hnodes
  induction body generalizing keywords nodes with
  | nil => rw [forall₂_nil_left_iff, forall₂_nil_left_iff]
  | cons s rest ih =>
    rw [forall₂_cons_left_iff, forall₂_cons_left_iff]
    simp only [ih h.2]
    simp only [Function.comp_apply, bodyStatement_iff h.1, hgates]

/-- A name that a gate can be declared under. -/
def IsFresh (lib : Library) (gates : List GateDef) (name : String) : Prop :=
  findGate? gates name = none ∧ lib.contains name = false ∧ name ≠ "U" ∧ name ≠ "CX"

theorem gate_gateTree (lib : Library) (p : Program) (position : Position) (name : Word) (params : Option Formals)
    (args : List Word) (bodyPosition : Position) (body : List BodyStatement) :
    gate lib p (gateTree position name params args bodyPosition body) =
      (if (findGate? p.gates name.text).isSome || lib.contains name.text || name.text = "U" || name.text = "CX" then
        failAt (.resolution (.duplicateGate name.text)) position.clamp
      else if repeats (formalNames params) then
        failAt (.semantic (.repeatedParameter name.text)) position.clamp
      else if repeats (args.map Word.text) then
        failAt (.semantic (.repeatedArgument name.text)) position.clamp
      else do
        let nodes ← ((body.map BodyStatement.toTree).filter Tree.isNode).mapM
          (bodyStatement lib p ⟨name.text, formalNames params, args.map Word.text⟩)
        pure ⟨name.text, position.clamp, formalNames params, args.map Word.text, nodes⟩) := by
  have hargs : identifiers (branch "gate_args" (wordsPosition args) [namesTree args]) = args.map Word.text := by
    show identifiers (namesTree args) ++ [] = _
    rw [append_nil, identifiers_namesTree]
  unfold formalNames
  rw [← hargs]
  cases params with
  | none => rfl
  | some f =>
    rw [Option.map_some, Option.getD_some, ← identifiers_formals]
    rfl

theorem gate_iff {params : Option Formals} {args : List Word} {bodyPosition : Position}
    (hbody : BodySpelled keywords body) {g : GateDef} :
    gate lib p (gateTree position name params args bodyPosition body) = .ok g ↔
      IsFresh lib p.gates name.text ∧ repeats (formalNames params) = false ∧ repeats (args.map Word.text) = false ∧
      ∃ nodes, BodyResolves lib p.gates ⟨name.text, formalNames params, args.map Word.text⟩ body nodes ∧
        GateDef.mk name.text position.clamp (formalNames params) (args.map Word.text) nodes = g := by
  rw [gate_gateTree]
  by_cases hfresh : IsFresh lib p.gates name.text
  · rw [if_neg (by simp [hfresh.1, hfresh.2.1, hfresh.2.2.1, hfresh.2.2.2])]
    by_cases hparams : repeats (formalNames params)
    · rw [if_pos hparams]
      exact ⟨fun h => absurd h failAt_ne_ok, fun h => absurd h.2.1 (by rw [hparams]; decide)⟩
    rw [if_neg hparams]
    by_cases hargs : repeats (args.map Word.text)
    · rw [if_pos hargs]
      exact ⟨fun h => absurd h failAt_ne_ok, fun h => absurd h.2.2.1 (by rw [hargs]; decide)⟩
    rw [if_neg hargs]
    simp only [bind_eq_ok, pure_eq_ok, body_iff hbody]
    exact ⟨fun h => ⟨hfresh, Bool.eq_false_iff.mpr hparams, Bool.eq_false_iff.mpr hargs, h⟩, fun h => h.2.2.2⟩
  · rw [if_pos]
    · exact ⟨fun h => absurd h failAt_ne_ok, fun h => absurd h.1 hfresh⟩
    · by_contra hnot
      apply hfresh
      simp only [Bool.or_eq_true, not_or, decide_eq_true_eq, Bool.not_eq_true, Option.isSome_eq_false_iff,
        Option.isNone_iff_eq_none] at hnot
      exact ⟨hnot.1.1.1, hnot.1.1.2, hnot.1.2, hnot.2⟩

end Program

end QasmCircuit
