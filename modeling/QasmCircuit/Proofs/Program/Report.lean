import QasmCircuit.Library.Packaged
import QasmCircuit.Proofs.Program.Extend
import QasmCircuit.Proofs.Program.Parameter
import QasmCircuit.Proofs.Source.Sound

/-!
# What can be wrong with a program

A text with the form of a program can still declare something twice, use what it does not declare, leave the range of
a register or ask for a value that an expression does not have (`Problem.IsOfProgram`). The tree of a text leads to no
other failure, since it has the shape that the readers of its parts ask for.

> `Program.ofTree_reports`: the tree of a text is a program, or it is refused with one of these problems.
-/

namespace QasmCircuit

open Outcome Source List

variable {position : Position}

/-- What can be wrong with a program whose text has the form of one. -/
def Problem.IsOfProgram : Problem → Prop
  | .register (.duplicate _) | .register (.qubitRange ..) | .register (.clbitRange ..) | .register (.noSize _)
  | .source (.indexedArgument _)
  | .expression (.unknownIdentifier _) | .expression (.unknownParameter ..)
  | .semantic (.repeatedParameter _) | .semantic (.repeatedArgument _)
  | .resolution (.notQuantum _) | .resolution (.notClassical _) | .resolution (.unknownQuantum _)
  | .resolution (.unknownClassical _) | .resolution (.notArgument ..) | .resolution (.unknownGate _)
  | .resolution (.duplicateGate _) | .modifier (.valueRange ..) => True
  | .expression reason => reason.IsUndefined
  | _ => False

namespace Program

open Problem (IsOfProgram)

variable {lib : Library} {p : Program} {scope : Option GateScope} {r : Reference} {what : Problem}
  {keywords : List Keyword} {α : Type}

theorem reports_at (h : IsOfProgram what) (hposition : position.isValid) :
    Reports IsOfProgram (failAt what position : Except Fault α) :=
  fails_error ⟨what, position, _, Fault.located_of_isValid what position hposition, h⟩

/-- The place of a tree is a place of a text. -/
theorem reports_atNode (h : IsOfProgram what) (position : Position) :
    Reports IsOfProgram (failAt what position.clamp : Except Fault α) :=
  reports_at h (Position.clamp_isValid position)

/-! ## Parameters and operands -/

theorem reports_parameter {e : Expr} (he : e.Spelled) : Reports IsOfProgram (parameter scope e.toTree) := by
  have hvalue : Reports IsOfProgram (do pure (Term.value (.real (← e.toTree.evaluate [])))) := by
    refine (Expr.fails_evaluate he (fun n _ p => ?_) fun reason position h => ?_).bind fun _ _ => fails_ok
    · unfold Tree.lookup
      split
      · exact fails_ok
      · exact reports_atNode (by trivial) p
    · exact ⟨_, position, none, rfl, by cases reason <;> trivial⟩
  cases scope with
  | none => exact hvalue
  | some g =>
    have hnames : e.toTree.paramNames = .ok (Tree.sortedNames e.names) := by
      rw [← e.names_toTree.1]
      cases e <;> rfl
    have htext : e.toTree.text = .ok e.text := by
      rw [Tree.text, e.print_toTree]
      rfl
    have hplaced : e.toTree.position.isValid := by cases e <;> exact Position.clamp_isValid _
    unfold parameter
    simp only [hnames, htext, bind, Except.bind]
    split
    · exact reports_at (by trivial) hplaced
    · split
      · exact hvalue
      · exact fails_ok

theorem reports_parameters {es : List Expr} (h : ∀ e ∈ es, e.Spelled) :
    Reports IsOfProgram ((es.map Expr.toTree).mapM (parameter scope)) := by
  rw [mapM_map]
  exact fails_mapM fun e he => reports_parameter (h e he)

theorem reports_inRange {size : Int} {problem : Int → Problem} {r : Ref} (h : ∀ i, IsOfProgram (problem i))
    (hposition : r.position.isValid) : Reports IsOfProgram (inRange size problem r) := by
  unfold inRange
  split
  · split
    · exact reports_at (h _) hposition
    · exact fails_ok
  · exact fails_ok

theorem reports_quantumRef (h : r.Spelled) : Reports IsOfProgram (quantumRef p scope r.toTree) := by
  unfold quantumRef
  rw [reference_toTree h]
  simp only [bind, Except.bind]
  cases scope with
  | some g =>
    dsimp only
    split
    · exact reports_atNode (by trivial) _
    · split
      · exact reports_atNode (by trivial) _
      · exact fails_ok
  | none =>
    dsimp only
    split
    · split
      · exact reports_atNode (by trivial) _
      · exact reports_atNode (by trivial) _
    · exact reports_inRange (fun _ => by trivial) (Position.clamp_isValid _)

theorem isOfProgram_classicalSize {name : String} (h : p.classicalSize name = .error what) : IsOfProgram what := by
  unfold classicalSize at h
  split at h
  · cases h
  · split at h
    · cases h
      trivial
    · cases h
      trivial

theorem reports_classicalRef (h : r.Spelled) : Reports IsOfProgram (classicalRef p r.toTree) := by
  unfold classicalRef
  rw [reference_toTree h]
  simp only [bind, Except.bind]
  split
  · next hsize => exact reports_atNode (isOfProgram_classicalSize hsize) _
  · exact reports_inRange (fun _ => by trivial) (Position.clamp_isValid _)

theorem reports_quantumRefs {rs : List Reference} (h : ∀ r ∈ rs, r.Spelled) :
    Reports IsOfProgram (quantumRefs p scope (rs.map Reference.toTree)) := by
  refine fails_mapM fun t ht => ?_
  obtain ⟨r, hr, rfl⟩ := mem_map.mp (mem_filter.mp ht).1
  exact reports_quantumRef (h r hr)

/-! ## Statements -/

theorem reports_operation {op : Source.Operation} (h : op.Spelled keywords) :
    Reports IsOfProgram (operation lib p scope op.toTree) := by
  cases op with
  | unitary position theta phi lam target =>
    have hparams : ∀ e ∈ [theta, phi, lam], e.Spelled := by
      rw [forall_mem_cons, forall_mem_cons, forall_mem_singleton]
      exact ⟨h.1, h.2.1, h.2.2.1⟩
    show Reports _ (unitary p scope (branch "u_op" position [theta.toTree, phi.toTree, lam.toTree, target.toTree]))
    rw [unitary_branch]
    exact (reports_parameters hparams).bind fun _ _ => (reports_quantumRef h.2.2.2).bind fun _ _ => fails_ok
  | controlledNot position control target =>
    have hspelled : ∀ r ∈ [control, target], r.Spelled := by
      rw [forall_mem_cons, forall_mem_singleton]
      exact h
    refine (reports_quantumRefs hspelled).bind fun refs hrefs => ?_
    rw [← ((quantumRefs_iff hspelled).mp hrefs).2]
    exact fails_ok
  | call name params operands =>
    show Reports _ (call lib p scope (callTree name params operands))
    rw [call_callTree]
    split
    · exact reports_atNode (by trivial) _
    · refine (reports_parameters fun e he => ?_).bind fun _ _ => (reports_quantumRefs h.2.2.2).bind fun _ _ => fails_ok
      cases params with
      | none => exact absurd he not_mem_nil
      | some ps => exact h.2.1 ps rfl e he

theorem reports_barrier {operands : List Reference} (h : ReferencesSpelled operands) :
    Reports IsOfProgram (barrier p scope (barrierTree position operands)) :=
  (reports_quantumRefs h.2 : Reports _ (quantumRefs p scope (operands.map Reference.toTree))).bind fun _ _ => fails_ok

theorem reports_action {a : Source.Action} (h : a.Spelled keywords) : Reports IsOfProgram
    (if a.toTree.hasLabel "measure" then measure p a.toTree else operation lib p none a.toTree) := by
  cases a with
  | operation op => exact reports_operation h
  | measure position qubit clbit =>
    exact (reports_quantumRef h.1 : Reports _ (quantumRef p none qubit.toTree)).bind fun _ _ =>
      (reports_classicalRef h.2).bind fun _ _ => fails_ok

theorem reports_statement {s : Statement} (h : s.Spelled) : Reports IsOfProgram (statement lib p s.toTree) := by
  cases s with
  | action a =>
    rw [statement_action]
    exact reports_action h
  | barrier position operands => exact reports_barrier h
  | guarded position register value a =>
    show Reports _ (guarded lib p (branch "if_stmt" position [register.name, value.integer, a.toTree]))
    rw [guarded_branch]
    cases hsize : p.classicalSize register.text with
    | error problem => exact reports_at (isOfProgram_classicalSize hsize) h.2.2.2
    | ok size =>
      unfold guardedBy
      rw [integer_word h.2.1]
      simp only [bind, Except.bind]
      split
      · exact reports_at (by trivial) h.2.2.2
      · exact (reports_action h.2.2.1).bind fun _ _ => fails_ok

/-! ## Declarations -/

theorem reports_register {label : String} {name size : Word} (hsize : Lexeme.isInteger size.text)
    (hplaced : name.position.isValid) :
    Reports IsOfProgram (register p label (branch label position [name.name, size.integer])) := by
  rw [register_branch hsize]
  split
  · exact reports_at (by trivial) hplaced
  · split
    · exact reports_at (by trivial) hplaced
    · exact fails_ok

theorem reports_gate {bodyPosition : Position} {name : Word} {params : Option Formals} {args : List Word}
    {body : List BodyStatement} (hbody : BodySpelled keywords body) :
    Reports IsOfProgram (gate lib p (gateTree position name params args bodyPosition body)) := by
  rw [gate_gateTree]
  split
  · exact reports_atNode (by trivial) _
  · split
    · exact reports_atNode (by trivial) _
    · split
      · exact reports_atNode (by trivial) _
      · refine (fails_mapM fun t ht => ?_).bind fun _ _ => fails_ok
        obtain ⟨s, hs, rfl⟩ := mem_map.mp (mem_filter.mp ht).1
        obtain ⟨keywords, hspelled⟩ := bodySpelled_forall hbody s hs
        cases s with
        | operation op => exact reports_operation hspelled
        | barrier position operands => exact reports_barrier hspelled

theorem reports_item {i : Item} (h : i.Spelled) : Reports IsOfProgram (item lib p i.toTree) := by
  cases i with
  | includes position path => exact fails_ok
  | declaration d =>
    cases d with
    | gate position name params args bodyPosition body => exact (reports_gate h.2.2.2).bind fun _ _ => fails_ok
    | _ => exact (reports_register h.2.1 h.2.2).bind fun _ _ => fails_ok
  | statement s =>
    have hs : Reports IsOfProgram (statement lib p s.toTree) := reports_statement h
    cases s <;> exact hs.bind fun _ _ => fails_ok

theorem reports_items {items : List Item} (h : ∀ i ∈ items, i.Spelled) :
    Reports IsOfProgram ((items.map Item.toTree).foldlM (item lib) p) := by
  induction items generalizing p with
  | nil => exact fails_ok
  | cons i items ih =>
    rw [forall_mem_cons] at h
    exact (reports_item h.1).bind fun q _ => ih h.2

/-- The tree of a text becomes a program, or one of the problems that are listed is reported. -/
theorem ofTree_reports {text : String} {source : Source} (h : Source.parse text = .ok source) (lib : Library) :
    (∃ p, ofTree lib source.toTree = .ok p) ∨ ∃ what position cause,
      ofTree lib source.toTree = .error (.problem what position cause) ∧ IsOfProgram what ∧ what.code ∈
        ["E101", "E102", "E103", "E201", "E301", "E302", "E401", "E402", "E403", "E404", "E405", "E501"] := by
  cases hresult : ofTree lib source.toTree with
  | ok p => exact .inl ⟨p, rfl⟩
  | error e =>
    obtain ⟨what, position, cause, rfl, hwhat⟩ :=
      reports_items (p := empty source.version.text) (Source.spelled_of_parse h).2 e hresult
    refine .inr ⟨what, position, cause, rfl, hwhat, contains_iff_mem.mp ?_⟩
    unfold IsOfProgram at hwhat
    split at hwhat
    all_goals first | exact hwhat.elim | cbv

/-- A guard over a register that is none, in front of a call with a parameter that has no value. -/
theorem ofTree_reports_guarded : ∃ source,
    Source.parse "OPENQASM 2.0; qreg q[1]; if(c==1) rx(1/0) q[0];" = .ok source ∧ ∃ what position cause,
      ofTree .packaged source.toTree = .error (.problem what position cause) ∧ IsOfProgram what := by
  have hrefused : (Source.parse "OPENQASM 2.0; qreg q[1]; if(c==1) rx(1/0) q[0];").toOption.any fun source =>
      (ofTree .packaged source.toTree).toOption.isNone := by decide +kernel
  obtain ⟨source, hsource, hnone⟩ := (Option.any_eq_true _ _).mp hrefused
  have hparse := toOption_eq_some.mp hsource
  refine ⟨source, hparse, ?_⟩
  rcases ofTree_reports hparse .packaged with ⟨p, hp⟩ | ⟨what, position, cause, herror, hwhat, -⟩
  · rw [hp] at hnone
    cases hnone
  · exact ⟨what, position, cause, herror, hwhat⟩

end Program

end QasmCircuit
