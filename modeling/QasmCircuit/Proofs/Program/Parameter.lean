import QasmCircuit.Proofs.Decimal.Literal
import QasmCircuit.Proofs.Program.Canonical
import QasmCircuit.Proofs.Report
import QasmCircuit.Program.OfTree

/-!
# Parameters

A parameter is a number, or in the body of a gate an expression over the parameters of the gate. The value of
an expression and the names in it do not depend on places (`Expr.value?`, `Expr.names`), and they decide what
the parameter becomes.

> `Program.parameter_iff`: what an expression becomes as a parameter.
-/

namespace QasmCircuit

open Outcome List

/-- An expression that is well-formed has no value. -/
def ExpressionProblem.IsUndefined : ExpressionProblem → Prop
  | .divisionByZero | .overflow | .notReal | .undefinedAt _ _ => True
  | _ => False

/-- A name that is bound fails as its value does. -/
theorem Tree.fails_lookup {E : Fault → Prop} {env : Env} {name : String} {d : Datum} (h : env.lookup name = some d)
    (token : Tree) (hd : Fails E d.toReal) : Fails E (lookup env token name) := by
  rw [lookup, h]
  split
  · exact fails_ok
  · exact hd

namespace Expr

theorem located_toTree (problem : Problem) (e : Expr) :
    Fault.located problem e.toTree.position = .problem problem e.toTree.position problem.cause? := by
  refine Fault.located_of_isValid problem _ ?_
  cases e <;> exact Position.clamp_isValid _

/-- The value of an expression, where it has one. -/
def value? (env : Tree.Env) : Expr → Option Float
  | .number _ text => Decimal.real? text
  | .pi _ => some Arithmetic.pi
  | .param _ name => if name = "pi" then some Arithmetic.pi else (env.lookup name).bind fun d => d.toReal.toOption
  | .call _ f argument => (argument.value? env).bind (Arithmetic.functionAt? f)
  | .neg _ operand => (operand.value? env).map fun x => -x
  | .binary _ op left right => do
    let x ← left.value? env
    let y ← right.value? env
    (Arithmetic.binary op x y).toOption

/-- The names in an expression, in the order of the text. -/
def names : Expr → List String
  | .number .. => []
  | .pi _ => []
  | .param _ name => [name]
  | .call _ _ argument => argument.names
  | .neg _ operand => operand.names
  | .binary _ _ left right => left.names ++ right.names

/-! The value of the tree of an expression comes from the values of its parts. -/

section

variable (env : Tree.Env) (p : Position)

theorem evaluate_number (text : String) : (Expr.number p text).toTree.evaluate env =
    Tree.numberValue (Expr.number p text).toTree [.leaf "NUMBER" text p] := by
  conv_lhs => unfold toTree Tree.evaluate
  simp only [show Tree.Shape.ofLabel "number" = .number from rfl]
  rfl

theorem evaluate_pi : (Expr.pi p).toTree.evaluate env = .ok Arithmetic.pi := by
  unfold toTree Tree.evaluate
  simp only [show Tree.Shape.ofLabel "pi" = .pi from rfl]

theorem evaluate_param (name : String) :
    (Expr.param p name).toTree.evaluate env = Tree.lookup env (.leaf "CNAME" name p) name := by
  conv_lhs => unfold toTree Tree.evaluate
  simp only [show Tree.Shape.ofLabel "param_ref" = .reference from rfl, Tree.leaf]

theorem evaluate_call (f : Function) (argument : Expr) : (Expr.call p f argument).toTree.evaluate env = (do
      let y ← argument.toTree.evaluate env
      Tree.functionValue f (Expr.call p f argument).toTree y) := by
  conv_lhs => unfold toTree Tree.evaluate
  simp only [show Tree.Shape.ofLabel "fun1" = .call from rfl, Tree.leaf]
  cases f <;> rfl

theorem evaluate_neg (operand : Expr) : (Expr.neg p operand).toTree.evaluate env = (do
    let y ← operand.toTree.evaluate env
    pure (-y)) := by
  conv_lhs => unfold toTree Tree.evaluate
  simp only [show Tree.Shape.ofLabel "neg" = .negation from rfl]

theorem evaluate_binary (op : Operator) (left right : Expr) : (Expr.binary p op left right).toTree.evaluate env = (do
      let y ← left.toTree.evaluate env
      let z ← right.toTree.evaluate env
      Tree.operatorValue op (Expr.binary p op left right).toTree right.toTree y z) := by
  conv_lhs => unfold toTree Tree.evaluate
  simp only [shape_label]
  rfl

end

theorem evaluate_iff (env : Tree.Env) (e : Expr) {x : Float} :
    e.toTree.evaluate env = .ok x ↔ e.value? env = some x := by
  induction e generalizing x with
  | number p text =>
    rw [evaluate_number, value?]
    unfold Tree.numberValue Tree.leaf
    dsimp only
    cases Decimal.real? text with
    | none => exact iff_of_false (fun h => by cases h) fun h => by cases h
    | some y => simp
  | pi p => rw [evaluate_pi, value?, Except.ok.injEq, Option.some.injEq]
  | param p name =>
    rw [evaluate_param, value?, Tree.lookup]
    split
    · simp
    · cases env.lookup name with
      | none => exact iff_of_false (fun h => by cases h) fun h => by cases h
      | some d => rw [Option.bind_some, toOption_eq_some]
  | call p f argument ih =>
    rw [evaluate_call, value?, bind_eq_ok, Option.bind_eq_some_iff]
    refine exists_congr fun y => and_congr ih ?_
    unfold Tree.functionValue
    cases Arithmetic.functionAt? f y with
    | none => exact iff_of_false (fun h => by cases h) fun h => by cases h
    | some z => simp
  | neg p operand ih =>
    rw [evaluate_neg, value?, bind_eq_ok, Option.map_eq_some_iff]
    exact exists_congr fun y => and_congr ih pure_eq_ok
  | binary p op left right ihl ihr =>
    have hvalue : ∀ y z, Tree.operatorValue op (Expr.binary p op left right).toTree right.toTree y z = .ok x ↔
        (Arithmetic.binary op y z).toOption = some x := by
      intro y z
      rw [toOption_eq_some]
      unfold Tree.operatorValue
      cases Arithmetic.binary op y z with
      | ok w => simp only [Except.ok.injEq]
      | error failure => cases failure <;> exact iff_of_false (fun h => by cases h) fun h => by cases h
    rw [evaluate_binary, value?]
    simp only [bind_eq_ok, ihl, ihr, hvalue, Option.bind_eq_bind, Option.bind_eq_some_iff]

/-- An expression has no value only if one of its operations or one of its names has none. -/
theorem fails_evaluate {E : Fault → Prop} {env : Tree.Env} {e : Expr} (hs : e.Spelled)
    (hnames : ∀ n ∈ e.names, ∀ p, Fails E (Tree.lookup env (.leaf "CNAME" n p) n))
    (hE : ∀ reason position, reason.IsUndefined → E (.problem (.expression reason) position none)) :
    Fails E (e.toTree.evaluate env) := by
  have hundefined : ∀ {reason : ExpressionProblem}, reason.IsUndefined → ∀ e : Expr,
      Fails E (failAt (.expression reason) e.toTree.position : Except Fault Float) := by
    intro reason hreason e
    refine fails_error ?_
    rw [located_toTree]
    exact hE reason _ hreason
  induction e with
  | number p text =>
    obtain ⟨x, hx⟩ := Decimal.exists_real? hs
    rw [(evaluate_iff env (.number p text)).mpr hx]
    exact fails_ok
  | pi p =>
    rw [evaluate_pi]
    exact fails_ok
  | param p name =>
    rw [evaluate_param]
    exact hnames name (mem_singleton_self name) _
  | call p f argument ih =>
    rw [evaluate_call]
    refine (ih hs hnames).bind fun y _ => ?_
    unfold Tree.functionValue
    split
    · exact fails_ok
    · exact hundefined (by trivial) (.call p f argument)
  | neg p operand ih =>
    rw [evaluate_neg]
    exact (ih hs hnames).bind fun _ _ => fails_ok
  | binary p op left right ihl ihr =>
    rw [evaluate_binary]
    refine (ihl hs.1 fun n hn => hnames n (mem_append_left _ hn)).bind fun y _ => ?_
    refine (ihr hs.2 fun n hn => hnames n (mem_append_right _ hn)).bind fun z _ => ?_
    unfold Tree.operatorValue
    split
    · exact fails_ok
    · exact hundefined (by trivial) right
    all_goals exact hundefined (by trivial) (.binary p op left right)

theorem names_toTree (e : Expr) : e.toTree.names = e.names ∧ e.toTree.hasLabel "func_name" = false := by
  induction e with
  | call p f argument ih =>
    refine ⟨?_, rfl⟩
    show (if argument.toTree.hasLabel "func_name" then [] else argument.toTree.names) ++ [] = _
    rw [ih.2, if_neg Bool.false_ne_true, append_nil, ih.1, names]
  | neg p operand ih =>
    refine ⟨?_, rfl⟩
    show (if operand.toTree.hasLabel "func_name" then [] else operand.toTree.names) ++ [] = _
    rw [ih.2, if_neg Bool.false_ne_true, append_nil, ih.1, names]
  | binary p op left right ihl ihr =>
    have hlabel : op.label ≠ "func_name" ∧ op.label ≠ "param_ref" := by
      cases op <;> exact ⟨by decide, by decide⟩
    refine ⟨?_, beq_false_of_ne hlabel.1⟩
    rw [toTree, Tree.names, if_neg hlabel.2, Tree.namesIn, Tree.namesIn, Tree.namesIn, ihl.2, ihr.2,
      if_neg Bool.false_ne_true, if_neg Bool.false_ne_true, append_nil, ihl.1, ihr.1, names]
  | _ => exact ⟨rfl, rfl⟩

/-! ## Places -/

theorem value?_unplaced (env : Tree.Env) (e : Expr) : e.unplaced.value? env = e.value? env := by
  induction e with
  | call p f argument ih => rw [unplaced, value?, ih, value?]
  | neg p operand ih => rw [unplaced, value?, ih, value?]
  | binary p op left right ihl ihr => rw [unplaced, value?, ihl, ihr, value?]
  | _ => rfl

theorem names_unplaced (e : Expr) : e.unplaced.names = e.names := by
  induction e with
  | call p f argument ih => rw [unplaced, names, ih, names]
  | neg p operand ih => rw [unplaced, names, ih, names]
  | binary p op left right ihl ihr => rw [unplaced, names, ihl, ihr, names]
  | _ => rfl

theorem level_unplaced (e : Expr) : e.unplaced.level = e.level := by cases e <;> rfl

theorem text_unplaced (e : Expr) : e.unplaced.text = e.text := by
  induction e with
  | call p f argument ih => rw [unplaced, text, ih, text]
  | neg p operand ih => rw [unplaced, text, ih, level_unplaced, text]
  | binary p op left right ihl ihr => rw [unplaced, text, ihl, ihr, level_unplaced, level_unplaced, text]
  | _ => rfl

end Expr

/-! ## What an expression becomes -/

namespace Program

theorem mem_sortedNames {n : String} {ns : List String} : n ∈ Tree.sortedNames ns ↔ n ∈ ns := by
  rw [Tree.sortedNames, mem_mergeSort, mem_eraseDups]

theorem sortedNames_isEmpty (ns : List String) : (Tree.sortedNames ns).isEmpty = ns.isEmpty := by
  rw [Bool.eq_iff_iff, List.isEmpty_iff, List.isEmpty_iff, eq_nil_iff_forall_not_mem, eq_nil_iff_forall_not_mem]
  simp only [mem_sortedNames]

/-- The term of an expression as a parameter: a number, unless it reads parameters of a gate. -/
def IsParameter (scope : Option GateScope) (e : Expr) (t : Term) : Prop :=
  match scope with
  | none => ∃ x, e.value? [] = some x ∧ Term.value (.real x) = t
  | some g => (∀ n ∈ e.names, n ∈ g.params) ∧
    if e.names = [] then ∃ x, e.value? [] = some x ∧ Term.value (.real x) = t
    else Term.symbolic e.text e.toTree = t

variable {t : Term} {e : Expr}

theorem value_iff : (do pure (Term.value (.real (← e.toTree.evaluate [])))) = Except.ok t ↔
      ∃ x, e.value? [] = some x ∧ Term.value (.real x) = t := by
  rw [bind_eq_ok]
  simp only [Expr.evaluate_iff, pure_eq_ok]

variable {scope : Option GateScope}

theorem parameter_iff : parameter scope e.toTree = .ok t ↔ IsParameter scope e t := by
  cases scope with
  | none => exact value_iff
  | some g =>
    have hnames : e.toTree.paramNames = pure (Tree.sortedNames e.names) := by
      rw [← (Expr.names_toTree e).1]
      cases e <;> rfl
    have htext : e.toTree.text = pure e.text := by
      rw [Tree.text, Expr.print_toTree]
      rfl
    unfold parameter IsParameter
    dsimp only
    rw [hnames, htext, pure_bind, pure_bind, sortedNames_isEmpty]
    cases hfind : (Tree.sortedNames e.names).find? fun n => !g.params.contains n with
    | some n =>
      have hn := find?_some hfind
      have hmem := mem_sortedNames.mp (mem_of_find?_eq_some hfind)
      refine iff_of_false (fun h => by cases h) fun h => ?_
      have hparam := h.1 n hmem
      rw [Bool.not_eq_true', contains_eq_mem, decide_eq_false_iff_not] at hn
      exact absurd hparam hn
    | none =>
      have hall : ∀ n ∈ e.names, n ∈ g.params := by
        intro n hn
        have hnone := find?_eq_none.mp hfind n (mem_sortedNames.mpr hn)
        simpa using hnone
      dsimp only
      by_cases hempty : e.names = []
      · rw [if_pos (List.isEmpty_iff.mpr hempty), if_pos hempty, value_iff]
        exact ⟨fun h => ⟨hall, h⟩, fun h => h.2⟩
      · rw [if_neg (by rw [List.isEmpty_iff]; exact hempty), if_neg hempty, pure_eq_ok]
        exact ⟨fun h => ⟨hall, h⟩, fun h => h.2⟩

/-- Where an expression stands has no part in what it becomes, but for the places in a term. -/
theorem IsParameter.unplaced {e' : Expr} (h : e'.unplaced = e.unplaced) (ht : IsParameter scope e t) :
    ∃ t', IsParameter scope e' t' ∧ t'.unplaced = t.unplaced := by
  have hvalue : e'.value? [] = e.value? [] := by rw [← Expr.value?_unplaced, h, Expr.value?_unplaced]
  have hnames : e'.names = e.names := by rw [← Expr.names_unplaced, h, Expr.names_unplaced]
  have htext : e'.text = e.text := by rw [← Expr.text_unplaced, h, Expr.text_unplaced]
  have htree : e'.toTree.unplaced = e.toTree.unplaced := by
    rw [← Expr.toTree_unplaced, h, Expr.toTree_unplaced]
  cases scope with
  | none => exact ⟨t, by rw [IsParameter, hvalue]; exact ht, rfl⟩
  | some g =>
    unfold IsParameter at ht ⊢
    dsimp only at ht ⊢
    rw [hnames, hvalue]
    by_cases hempty : e.names = []
    · rw [if_pos hempty] at ht
      exact ⟨t, ⟨ht.1, by rw [if_pos hempty]; exact ht.2⟩, rfl⟩
    · rw [if_neg hempty] at ht
      refine ⟨.symbolic e'.text e'.toTree, ⟨ht.1, ?_⟩, ?_⟩
      · rw [if_neg hempty]
      · rw [← ht.2, Term.unplaced, Term.unplaced, htext, htree]

end Program

end QasmCircuit
