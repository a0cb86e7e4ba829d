import QasmCircuit.Tree.Print
import QasmCircuit.Proofs.Token.Lexing

/-!
# Printed expressions

The text of an expression, apart from the tree that carries it, and the trees that are expressions. Where
an expression stands has no part in its text, so expressions and trees are compared without their places.

> `Expr.print_toTree`: the tree of an expression prints as the text of the expression.
>
> `Tree.IsExpression.exists_expr`: every tree of an expression is the tree of some expression, up to places.
-/

namespace QasmCircuit

namespace Tree

mutual

def unplaced : Tree → Tree
  | .node label _ children => .node label none (unplacedAll children)
  | .token kind text _ _ => .token kind text none none
  | .datum d => .datum d

def unplacedAll : List Tree → List Tree
  | [] => []
  | t :: rest => t.unplaced :: unplacedAll rest

end

end Tree

namespace Expr

/-- How tightly the text of an expression binds. -/
def level : Expr → Nat
  | .neg .. => negationLevel
  | .binary _ op _ _ => op.level
  | _ => atomLevel

def text : Expr → String
  | .number _ text => text
  | .pi _ => Keyword.pi.text
  | .param _ name => name
  | .call _ f argument => f.text ++ "(" ++ argument.text ++ ")"
  | .neg _ operand => "-" ++ Tree.enclose (operand.level < negationLevel) operand.text
  | .binary _ op left right =>
    (Tree.printBinary op (left.text, left.level) (right.text, right.level)).1

/-- An expression without its places. -/
def unplaced : Expr → Expr
  | .number _ text => .number .origin text
  | .pi _ => .pi .origin
  | .param _ name => .param .origin name
  | .call _ f argument => .call .origin f argument.unplaced
  | .neg _ operand => .neg .origin operand.unplaced
  | .binary _ op left right => .binary .origin op left.unplaced right.unplaced

/-- The words and numbers of an expression are tokens of their kind. -/
def Spelled : Expr → Prop
  | .number _ text => Lexeme.isNumber text
  | .pi _ => True
  | .param _ name => Lexeme.isWord name ∧ Keyword.ofText? Keyword.operands name = none
  | .call _ _ argument => argument.Spelled
  | .neg _ operand => operand.Spelled
  | .binary _ _ left right => left.Spelled ∧ right.Spelled

theorem toTree_unplaced (e : Expr) : e.unplaced.toTree.unplaced = e.toTree.unplaced := by
  induction e with
  | call p f argument ih =>
    simp only [unplaced, toTree, Tree.unplaced, Tree.unplacedAll, ih]
    rfl
  | neg p operand ih => simp only [unplaced, toTree, Tree.unplaced, Tree.unplacedAll, ih]
  | binary p op left right ihl ihr =>
    simp only [unplaced, toTree, Tree.unplaced, Tree.unplacedAll, ihl, ihr]
  | _ => rfl

theorem shape_label (op : Operator) : Tree.Shape.ofLabel op.label = .binary op := by
  rw [Tree.Shape.ofLabel, Operator.ofLabel?_label]

end Expr

/-! ## The text of a tree -/

namespace Tree

variable {a : String × Nat}

theorem print_call {argument : Tree} (h : argument.print = .ok a)
    (p q : Option Position) (kind name : String) (line col : Option Int) :
    print (.node "fun1" p [.node "func_name" q [.token kind name line col], argument]) =
      .ok (name ++ "(" ++ a.1 ++ ")", atomLevel) := by
  unfold print
  simp only [show Shape.ofLabel "fun1" = .call from rfl, h]
  rfl

theorem print_neg {operand : Tree} (h : operand.print = .ok a) (p : Option Position) : print (.node "neg" p [operand]) =
      .ok ("-" ++ enclose (a.2 < negationLevel) a.1, negationLevel) := by
  unfold print
  simp only [show Shape.ofLabel "neg" = .negation from rfl, h]
  rfl

theorem print_binary {left right : Tree} {l r : String × Nat} (hl : left.print = .ok l)
    (hr : right.print = .ok r) (op : Operator) (p : Option Position) :
    print (.node op.label p [left, right]) = .ok (printBinary op l r) := by
  unfold print
  simp only [Expr.shape_label, hl, hr]
  rfl

end Tree

theorem Expr.print_toTree (e : Expr) : e.toTree.print = .ok (e.text, e.level) := by
  induction e with
  | call p f argument ih => exact Tree.print_call ih ..
  | neg p operand ih => exact Tree.print_neg ih _
  | binary p op left right ihl ihr => exact Tree.print_binary ihl ihr op _
  | _ => rfl

/-! ## The trees of expressions -/

namespace Tree

/-- The trees of expressions: numbers, `pi`, references to parameters, and what functions, a minus sign and
operators make of them. Their tokens are spelled as tokens of their kind; they may stand anywhere. -/
inductive IsExpression : Tree → Prop
  | number {p : Option Position} {text : String} {line col : Option Int} (h : Lexeme.isNumber text) :
      IsExpression (.node "number" p [.token "NUMBER" text line col])
  | pi {p : Option Position} : IsExpression (.node "pi" p [])
  | param {p : Option Position} {name : String} {line col : Option Int}
      (hword : Lexeme.isWord name) (hfree : name ∉ Keyword.operands.map Keyword.text) :
      IsExpression (.node "param_ref" p [.token "CNAME" name line col])
  | call {p q : Option Position} {f : Function} {line col : Option Int} {argument : Tree} (h : IsExpression argument) :
      IsExpression (.node "fun1" p [.node "func_name" q [.token (Keyword.function f).label f.text line col], argument])
  | neg {p : Option Position} {operand : Tree} (h : IsExpression operand) : IsExpression (.node "neg" p [operand])
  | binary {p : Option Position} {op : Operator} {left right : Tree} (hl : IsExpression left)
      (hr : IsExpression right) : IsExpression (.node op.label p [left, right])

theorem ofText?_eq_none {allowed : List Keyword} {s : String} (h : s ∉ allowed.map Keyword.text) :
    Keyword.ofText? allowed s = none := by
  refine List.find?_eq_none.mpr fun k hk heq => h ?_
  exact List.mem_map.mpr ⟨k, hk, eq_of_beq heq⟩

theorem IsExpression.exists_expr {t : Tree} (h : t.IsExpression) :
    ∃ e : Expr, e.Spelled ∧ t.unplaced = e.toTree.unplaced ∧ t.print = .ok (e.text, e.level) := by
  induction h with
  | @number p text line col h => exact ⟨.number .origin text, h, rfl, rfl⟩
  | pi => exact ⟨.pi .origin, trivial, rfl, rfl⟩
  | @param p name line col hword hfree =>
    exact ⟨.param .origin name, ⟨hword, ofText?_eq_none hfree⟩, rfl, rfl⟩
  | @call p q f line col argument _ ih =>
    obtain ⟨e, hs, hu, hp⟩ := ih
    refine ⟨.call .origin f e, hs, ?_, print_call hp ..⟩
    simp only [Expr.toTree, unplaced, unplacedAll, hu]
    rfl
  | @neg p operand _ ih =>
    obtain ⟨e, hs, hu, hp⟩ := ih
    refine ⟨.neg .origin e, hs, ?_, print_neg hp _⟩
    simp only [Expr.toTree, unplaced, unplacedAll, hu]
  | @binary p op left right _ _ ihl ihr =>
    obtain ⟨l, hls, hlu, hlp⟩ := ihl
    obtain ⟨r, hrs, hru, hrp⟩ := ihr
    refine ⟨.binary .origin op l r, ⟨hls, hrs⟩, ?_, print_binary hlp hrp op _⟩
    simp only [Expr.toTree, unplaced, unplacedAll, hlu, hru]

end Tree

end QasmCircuit
