import QasmCircuit.Proofs.Expr.ReadBack

/-!
# Printed expressions are as short as they can be

The text of an expression has `Expr.tokenCount` tokens (`Expr.derives_text`). Every derivation has at least as many:
what binds less tightly than its category must stand in parentheses, and the printer writes no others. The induction
is on the derivation, whose category says at each operand how tightly it has to bind.

> `Tree.text_is_shortest`: no tokens that are read as a tree are fewer than those of the text of the tree.
-/

namespace QasmCircuit

namespace Expr

variable {c : Category} {needed : Bool}

theorem le_enclosedCount (needed : Bool) (n : Nat) : n ≤ enclosedCount needed n := by
  cases needed
  · exact le_rfl
  · exact Nat.le_add_right n 2

theorem enclosedCount_le (needed : Bool) (n : Nat) : enclosedCount needed n ≤ n + 2 := by
  cases needed
  · exact Nat.le_add_right n 2
  · exact le_rfl

theorem enclosedCount_mono {needed' : Bool} (h : needed → needed') (n : Nat) :
    enclosedCount needed n ≤ enclosedCount needed' n := by
  cases needed with
  | false => exact le_enclosedCount needed' n
  | true => rw [h rfl]

/-- What binds as tightly as its place asks for needs no parentheses there. -/
theorem enclosedCount_of_le {k l : Nat} (h : l ≤ k) (n : Nat) : enclosedCount (k < l) n = n := by
  rw [decide_eq_false (not_lt.mpr h)]
  rfl

theorem Joins.enclosesLeft {op : Operator} {next : Category} (h : Joins op c next) (k : Nat) :
    Tree.enclosesLeft op k = decide (k < c.level) := by
  cases h <;> rfl

theorem Joins.enclosesRight {op : Operator} {next : Category} (h : Joins op c next) (k : Nat) :
    Tree.enclosesRight op k = decide (k < next.level) := by
  cases h <;> exact decide_eq_decide.mpr Nat.lt_succ_iff.symm

/-- A derivation has a pair of parentheses at least where its expression binds less tightly than its category. -/
theorem Derivation.enclosedCount_le_length (d : Derivation c) :
    enclosedCount (d.expr.level < c.level) d.expr.tokenCount ≤ d.tokens.length := by
  induction d with
  | primary kind t => cases kind <;> exact le_rfl
  | call t opening argument closing ih =>
    have hargument := (le_enclosedCount _ _).trans ih
    refine (enclosedCount_of_le le_rfl _).trans_le ?_
    simpa [expr, tokenCount, tokens] using hargument
  | group opening inner closing ih =>
    have hinner := (le_enclosedCount _ _).trans ih
    refine (enclosedCount_le _ _).trans ?_
    simpa [expr, tokens] using hinner
  | pow base sign exponent ihb ihe =>
    have hleft : Tree.enclosesLeft .pow base.expr.level = decide (base.expr.level < Category.atom.level) :=
      decide_eq_decide.mpr Nat.lt_succ_iff.symm
    refine (enclosedCount_of_le le_rfl _).trans_le ?_
    rw [expr, tokenCount, hleft, tokens, List.length_append]
    exact Nat.add_le_add ihb (Nat.succ_le_succ ihe)
  | neg sign operand ih =>
    exact (enclosedCount_of_le le_rfl _).trans_le (Nat.succ_le_succ ih)
  | join hjoins left sign right ihl ihr =>
    refine (enclosedCount_of_le hjoins.level.ge _).trans_le ?_
    rw [expr, tokenCount, hjoins.enclosesLeft, hjoins.enclosesRight, tokens, List.length_append]
    exact Nat.add_le_add ihl (Nat.succ_le_succ ihr)
  | single hincludes only ih =>
    have hlevel := hincludes.level
    refine (enclosedCount_mono (fun h => ?_) _).trans ih
    rw [expr, decide_eq_true_eq] at h
    rw [decide_eq_true_eq]
    omega

/-- The number of tokens only depends on the tree, up to places. -/
theorem tokenCount_eq {e e' : Expr} (h : e.toTree.unplaced = e'.toTree.unplaced) :
    e.level = e'.level ∧ e.tokenCount = e'.tokenCount := by
  induction e generalizing e' with
  | call p f argument ih =>
    cases e' with
    | call p' f' argument' =>
      simp only [toTree, Tree.unplaced, Tree.unplacedAll, Tree.node.injEq, List.cons.injEq] at h
      exact ⟨rfl, congrArg (· + 3) (ih h.2.2.2.1).2⟩
    | binary p' op => cases op <;> simp [toTree, Tree.unplaced, Operator.label] at h
    | _ => simp [toTree, Tree.unplaced] at h
  | neg p operand ih =>
    cases e' with
    | neg p' operand' =>
      simp only [toTree, Tree.unplaced, Tree.unplacedAll, Tree.node.injEq, List.cons.injEq] at h
      exact ⟨rfl, by simp only [tokenCount, ih h.2.2.1]⟩
    | binary p' op => cases op <;> simp [toTree, Tree.unplaced, Operator.label] at h
    | _ => simp [toTree, Tree.unplaced] at h
  | binary p op left right ihl ihr =>
    cases e' with
    | binary p' op' left' right' =>
      simp only [toTree, Tree.unplaced, Tree.unplacedAll, Tree.node.injEq, List.cons.injEq] at h
      have hop := congrArg Tree.Shape.ofLabel h.1
      rw [shape_label, shape_label, Tree.Shape.binary.injEq] at hop
      exact ⟨congrArg Operator.level hop, by simp only [tokenCount, hop, ihl h.2.2.1, ihr h.2.2.2.1]⟩
    | _ => cases op <;> simp [toTree, Tree.unplaced, Operator.label] at h
  | _ =>
    cases e' with
    | binary p' op => cases op <;> simp [toTree, Tree.unplaced, Operator.label] at h
    | _ => simp [toTree, Tree.unplaced, level, tokenCount] at h ⊢

end Expr

/-- The text of the tree of an expression is made up of tokens that are read as this tree, and no tokens that are read
as it are fewer. -/
theorem Tree.text_is_shortest {t : Tree} (h : t.IsExpression) :
    ∃ s ts q, t.text = .ok s ∧ Source.Reader.Spells none (Cursor.ofText s) ts q ∧ q.rest = [] ∧
      (∃ u, Expr.IsReadAs ts u ∧ u.unplaced = t.unplaced) ∧
      ∀ ts' u, Expr.IsReadAs ts' u → u.unplaced = t.unplaced → ts.length ≤ ts'.length := by
  obtain ⟨e, hspelled, htree, hprint⟩ := h.exists_expr
  have hderives : Expr.Derives e.category (e.text.toList ++ []) [] e e.tokenCount :=
    Expr.derives_text hspelled (by simp [Lexeme.Ends])
  obtain ⟨d, q, hleads, hrest, hexpr, hcount⟩ := hderives (Cursor.ofText e.text) (by simp [Cursor.ofText])
  have hspells := hleads none rfl [] q fun _ _ => .nil
  rw [List.append_nil] at hspells
  refine ⟨e.text, d.tokens, q, by rw [text, hprint]; rfl, hspells, hrest, ⟨d.tree, d.isReadAs, ?_⟩,
    fun ts' u hread hu => ?_⟩
  · rw [htree, ← d.toTree_expr, ← Expr.toTree_unplaced, ← Expr.toTree_unplaced e, hexpr]
  · obtain ⟨d', rfl, rfl⟩ := Expr.isReadAs_iff.mp hread
    rw [← d'.toTree_expr, htree] at hu
    rw [hcount, ← (Expr.tokenCount_eq hu).2]
    exact (Expr.le_enclosedCount _ _).trans d'.enclosedCount_le_length

/-- The parentheses of a negated base cannot be left out. -/
theorem Tree.text_is_shortest_negated_base :
    let t := Tree.node "pow" none
      [.node "neg" none [.node "pi" none []], .node "number" none [.token "NUMBER" "2" none none]]
    t.IsExpression ∧ ∃ s ts q, t.text = .ok s ∧ Source.Reader.Spells none (Cursor.ofText s) ts q ∧ q.rest = [] ∧
      (∃ u, Expr.IsReadAs ts u ∧ u.unplaced = t.unplaced) ∧
      ∀ ts' u, Expr.IsReadAs ts' u → u.unplaced = t.unplaced → ts.length ≤ ts'.length := by
  intro t
  have h : t.IsExpression := @IsExpression.binary none .pow _ _ (.neg .pi) (.number (by decide))
  exact ⟨h, text_is_shortest h⟩

end QasmCircuit
