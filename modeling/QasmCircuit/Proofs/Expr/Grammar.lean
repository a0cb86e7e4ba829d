import QasmCircuit.Expr.Machine

/-!
# The grammar of expressions

The rules by which tokens make up an expression, as a type of derivations:

    sum     : product | sum ("+" | "-") product
    product : unary   | product ("*" | "/") unary
    unary   : power   | "-" unary
    power   : atom    | atom "^" unary
    atom    : NUMBER  | "pi" | CNAME | function "(" sum ")" | "(" sum ")"

A derivation knows the tokens that it derives and the tree that it stands for.

> `Derivation.eq_of_tokens_eq`: no tokens have two derivations.

The proof compares two derivations from the left. What stands behind a sum or a product may still go on with it, so that
the induction cannot ask for equality: of two derivations that begin alike, one goes on from the other
(`Derivation.extend`).
-/

namespace QasmCircuit

open List

/-- The symbol that an operator is written with. -/
def Operator.mark : Operator → Symbol
  | .add => .plus
  | .sub => .minus
  | .mul => .star
  | .div => .slash
  | .pow => .caret

theorem Operator.mark_injective {op op' : Operator} (h : op.mark = op'.mark) : op = op' := by
  cases op <;> cases op' <;> first | rfl | cases h

/-- A token of one terminal. -/
structure Leaf (terminal : Terminal) where
  token : Token
  terminal_eq : token.terminal = terminal

theorem Leaf.ext_token {terminal : Terminal} {t t' : Leaf terminal} (h : t.token = t'.token) : t = t' := by
  cases t
  cases t'
  cases h
  rfl

namespace Expr

variable {op : Operator} {c next : Category}

/-- What the rules are about. -/
inductive Category where
  | sum
  | product
  | unary
  | power
  | atom
deriving DecidableEq

/-- How tightly what a category derives binds. -/
def Category.level : Category → Nat
  | .sum => 1
  | .product => 2
  | .unary => 3
  | .power => 4
  | .atom => 5

/-- A category and the one that it takes over as it is. -/
inductive Includes : Category → Category → Prop
  | sum : Includes .sum .product
  | product : Includes .product .unary
  | unary : Includes .unary .power
  | power : Includes .power .atom

/-- An operator that associates to the left, the category of what it makes and of its left operand, and the category of
its right operand. -/
inductive Joins : Operator → Category → Category → Prop
  | add : Joins .add .sum .product
  | sub : Joins .sub .sum .product
  | mul : Joins .mul .product .unary
  | div : Joins .div .product .unary

/-- The atoms that are a single token. -/
inductive Primary where
  | number
  | pi
  | name

/-- The terminal of an atom that is a single token. -/
def Primary.terminal : Primary → Terminal
  | .number => .number
  | .pi => .keyword .pi
  | .name => .name

/-- The derivations of a category, one constructor for each kind of rule. -/
inductive Derivation : Category → Type
  | primary (kind : Primary) (t : Leaf kind.terminal) : Derivation .atom
  | call {f : Function} (t : Leaf (.keyword (.function f))) (opening : Leaf (.symbol .leftParen))
      (argument : Derivation .sum) (closing : Leaf (.symbol .rightParen)) : Derivation .atom
  | group (opening : Leaf (.symbol .leftParen)) (inner : Derivation .sum)
      (closing : Leaf (.symbol .rightParen)) : Derivation .atom
  | pow (base : Derivation .atom) (sign : Leaf (.symbol Operator.pow.mark)) (exponent : Derivation .unary) :
      Derivation .power
  | neg (sign : Leaf (.symbol .minus)) (operand : Derivation .unary) : Derivation .unary
  | join {op : Operator} {c next : Category} (h : Joins op c next) (left : Derivation c)
      (sign : Leaf (.symbol op.mark)) (right : Derivation next) : Derivation c
  | single {c next : Category} (h : Includes c next) (only : Derivation next) : Derivation c

namespace Derivation

def tokens {c : Category} : Derivation c → List Token
  | .primary _ t => [t.token]
  | .call t opening argument closing => t.token :: opening.token :: (argument.tokens ++ [closing.token])
  | .group opening inner closing => opening.token :: (inner.tokens ++ [closing.token])
  | .pow base sign exponent => base.tokens ++ sign.token :: exponent.tokens
  | .neg sign operand => sign.token :: operand.tokens
  | .join _ left sign right => left.tokens ++ sign.token :: right.tokens
  | .single _ only => only.tokens

/-- The place of the first token. -/
def start {c : Category} : Derivation c → Position
  | .primary _ t => t.token.position
  | .call t _ _ _ => t.token.position
  | .group opening _ _ => opening.token.position
  | .pow base _ _ => base.start
  | .neg sign _ => sign.token.position
  | .join _ left _ _ => left.start
  | .single _ only => only.start

/-- The tree of a derivation. A parenthesis and a category that takes another one over leave no node. -/
def tree {c : Category} : Derivation c → Tree
  | .primary .number t => .node "number" (some t.token.position) [.leaf "NUMBER" t.token.text t.token.position]
  | .primary .pi t => .node "pi" (some t.token.position) []
  | .primary .name t => .node "param_ref" (some t.token.position) [.leaf "CNAME" t.token.text t.token.position]
  | @call f t _ argument _ => .node "fun1" (some t.token.position)
      [.node "func_name" (some t.token.position) [.leaf (Keyword.function f).label f.text t.token.position],
      argument.tree]
  | .group _ inner _ => inner.tree
  | .pow base _ exponent => .node "pow" (some base.start) [base.tree, exponent.tree]
  | .neg sign operand => .node "neg" (some sign.token.position) [operand.tree]
  | @join op _ _ _ left _ right => .node op.label (some left.start) [left.tree, right.tree]
  | .single _ only => only.tree

end Derivation

/-! ## What can follow -/

namespace Category

/-- Whether an operator behind a sentence of a category takes the end of it as its operand. -/
def isTighter : Category → Operator → Bool
  | .sum, op => op = .mul || op = .div || op = .pow
  | .product, op | .unary, op | .power, op => op = .pow
  | .atom, _ => false

/-- No operator stands in front of some tokens that would take away the end of a sentence of a category. -/
def Follows (c : Category) (rest : List Token) : Prop :=
  ∀ t ∈ rest.head?, ∀ op, t.terminal = .symbol (Operator.mark op) → c.isTighter op = false

/-- Nor one with which the sentence would go on. -/
def Ends (c : Category) (rest : List Token) : Prop :=
  c.Follows rest ∧ ∀ t ∈ rest.head?, ∀ op next, Joins op c next → t.terminal ≠ .symbol op.mark

theorem follows_cons {t : Token} (h : t.terminal = .symbol op.mark)
    (hop : c.isTighter op = false) (rest : List Token) : c.Follows (t :: rest) := by
  intro t' ht' op' hop'
  cases ht'
  rw [h, Terminal.symbol.injEq] at hop'
  rw [← Operator.mark_injective hop']
  exact hop

/-- A token that is no operator ends everything. -/
theorem ends_cons {t : Token} (h : ∀ op : Operator, t.terminal ≠ .symbol op.mark) (c : Category)
    (rest : List Token) : c.Ends (t :: rest) := by
  constructor
  · intro t' ht' op hop
    cases ht'
    exact absurd hop (h op)
  · intro t' ht' op next _ hop
    cases ht'
    exact absurd hop (h op)

theorem ends_nil (c : Category) : c.Ends [] :=
  ⟨fun _ h => absurd h (by simp), fun _ h => absurd h (by simp)⟩

end Category

theorem Joins.unique {c' next' : Category} (h : Joins op c next) (h' : Joins op c' next') : c = c' ∧ next = next' := by
  cases h <;> cases h' <;> exact ⟨rfl, rfl⟩

theorem Includes.unique {next' : Category} (h : Includes c next) (h' : Includes c next') : next = next' := by
  cases h <;> cases h' <;> rfl

/-- The operand of an operator is what the category takes over. -/
theorem Joins.includes (h : Joins op c next) : Includes c next := by
  cases h <;> constructor

/-- The operators of a category do not take away what they have to their left. -/
theorem Joins.isTighter (h : Joins op c next) : c.isTighter op = false := by
  cases h <;> rfl

/-- What follows a category ends the one that it takes over. -/
theorem Includes.ends (h : Includes c next) {rest : List Token} (hrest : c.Follows rest) : next.Ends rest := by
  refine ⟨fun t ht op hop => ?_, fun t ht op after hjoins hop => ?_⟩
  · have := hrest t ht op hop
    cases h <;> simp_all [Category.isTighter]
  · have := hrest t ht op hop
    cases h <;> cases hjoins <;> simp_all [Category.isTighter]

/-! ## Derivations that go on -/

namespace Derivation

/-- An operator with its right operand. -/
structure Step (c : Category) where
  {op : Operator}
  {next : Category}
  joins : Joins op c next
  sign : Leaf (.symbol op.mark)
  operand : Derivation next

variable {c next : Category} {d d' : Derivation c} {rest rest' : List Token}

/-- The tokens of an operator and its right operand. -/
def Step.tokens (s : Step c) : List Token := s.sign.token :: s.operand.tokens

/-- A derivation that goes on with further operators. -/
def extend (d : Derivation c) : List (Step c) → Derivation c
  | [] => d
  | s :: steps => extend (.join s.joins d s.sign s.operand) steps

theorem tokens_extend (d : Derivation c) (steps : List (Step c)) :
    (d.extend steps).tokens = d.tokens ++ steps.flatMap Step.tokens := by
  induction steps generalizing d with
  | nil => simp [extend]
  | cons s steps ih => simp [extend, ih, tokens, Step.tokens]

theorem extend_append (d : Derivation c) (steps : List (Step c)) (s : Step c) :
    d.extend (steps ++ [s]) = .join s.joins (d.extend steps) s.sign s.operand := by
  induction steps generalizing d with
  | nil => rfl
  | cons s' steps ih => exact ih _

/-- A derivation whose last rule takes over a sentence of another category, and what it goes on with. -/
theorem exists_extend (d : Derivation c) (h : Includes c next) (hc : c = .sum ∨ c = .product) :
    ∃ (first : Derivation next) (steps : List (Step c)), d = (single h first).extend steps := by
  induction d with
  | join hjoins left sign right ihl ihr =>
    obtain ⟨first, steps, rfl⟩ := ihl h hc
    exact ⟨first, steps ++ [⟨hjoins, sign, right⟩], (extend_append _ _ ⟨hjoins, sign, right⟩).symm⟩
  | single h' only ih =>
    cases h.unique h'
    exact ⟨only, [], rfl⟩
  | _ => rcases hc with hc | hc <;> cases hc

/-! ## Unambiguity -/

/-- A derivation that begins as another one does, and is followed by something that ends it, goes on from the other
one. -/
def Leads (d : Derivation c) : Prop :=
  ∀ (d' : Derivation c) (rest rest' : List Token), d.tokens ++ rest = d'.tokens ++ rest' → c.Follows rest →
    c.Ends rest' → ∃ steps : List (Step c), d' = d.extend steps ∧ rest = steps.flatMap Step.tokens ++ rest'

theorem Leads.eq (hd : d.Leads) (h : d.tokens ++ rest = d'.tokens ++ rest') (hrest : c.Ends rest)
    (hrest' : c.Ends rest') : d = d' ∧ rest = rest' := by
  obtain ⟨steps, rfl, rfl⟩ := hd d' rest rest' h hrest.1 hrest'
  cases steps with
  | nil => exact ⟨rfl, rfl⟩
  | cons s steps => exact absurd s.sign.terminal_eq (hrest.2 _ rfl _ _ s.joins)

/-- In front of the operators that a derivation goes on with, the sentence of the next category ends. -/
theorem ends_steps (h : Includes c next) {steps : List (Step c)} (hrest : c.Ends rest) :
    next.Ends (steps.flatMap Step.tokens ++ rest) := by
  refine h.ends ?_
  cases steps with
  | nil => exact hrest.1
  | cons s steps => exact Category.follows_cons s.sign.terminal_eq s.joins.isTighter _

/-- Equal tokens are of one terminal. -/
theorem terminal_eq_of_cons {terminal terminal' : Terminal} {t : Leaf terminal} {t' : Leaf terminal'}
    (h : t.token :: rest = t'.token :: rest') : terminal = terminal' := by
  rw [← t.terminal_eq, ← t'.terminal_eq, (List.cons.inj h).1]

/-- No atom and no power begins with a sign. -/
theorem tokens_ne_minus (d : Derivation c) (hc : c = .power ∨ c = .atom) (sign : Leaf (.symbol .minus))
    (rest rest' : List Token) : d.tokens ++ rest ≠ sign.token :: rest' := by
  induction d generalizing rest with
  | primary kind t =>
    intro h
    cases kind <;> cases terminal_eq_of_cons h
  | pow base sign exponent ih =>
    rw [tokens, append_assoc]
    exact ih (Or.inr rfl) _
  | neg => rcases hc with hc | hc <;> cases hc
  | join hjoins => rcases hc with rfl | rfl <;> cases hjoins
  | single h only ih =>
    refine ih ?_ rest
    rcases hc with rfl | rfl <;> cases h
    exact Or.inr rfl
  | _ =>
    intro h
    cases terminal_eq_of_cons h

theorem ends_closing (closing : Leaf (.symbol .rightParen)) (c : Category) (rest : List Token) :
    c.Ends (closing.token :: rest) := by
  refine Category.ends_cons (fun op hop => ?_) c rest
  rw [closing.terminal_eq] at hop
  cases op <;> cases hop

/-- What stands in parentheses is one sentence. -/
theorem Leads.enclosed (hd : d.Leads) {closing closing' : Leaf (.symbol .rightParen)}
    (h : d.tokens ++ [closing.token] ++ rest = d'.tokens ++ [closing'.token] ++ rest') :
    d = d' ∧ closing = closing' ∧ rest = rest' := by
  rw [append_assoc, append_assoc] at h
  obtain ⟨heq, hrest⟩ := hd.eq h (ends_closing ..) (ends_closing ..)
  exact ⟨heq, Leaf.ext_token (List.cons.inj hrest).1, (List.cons.inj hrest).2⟩

theorem leads_primary (kind : Primary) (t : Leaf kind.terminal) : (primary kind t).Leads := by
  intro d' rest rest' h _ _
  cases d' with
  | primary kind' t' =>
    have hkind : kind = kind' := by
      have hterminal := terminal_eq_of_cons h
      cases kind <;> cases kind' <;> first | rfl | cases hterminal
    cases hkind
    cases Leaf.ext_token (List.cons.inj h).1
    exact ⟨[], rfl, (List.cons.inj h).2⟩
  | join hjoins => cases hjoins
  | single hincludes => cases hincludes
  | _ => cases kind <;> cases terminal_eq_of_cons h

theorem leads_call {f : Function} {argument : Derivation .sum} (hargument : argument.Leads)
    (t : Leaf (.keyword (.function f))) (opening : Leaf (.symbol .leftParen)) (closing : Leaf (.symbol .rightParen)) :
    (call t opening argument closing).Leads := by
  intro d' rest rest' h _ _
  cases d' with
  | call t' opening' argument' closing' =>
    cases terminal_eq_of_cons h
    obtain ⟨ht, hbehind⟩ := List.cons.inj h
    obtain ⟨hopening, hinner⟩ := List.cons.inj hbehind
    cases Leaf.ext_token ht
    cases Leaf.ext_token hopening
    obtain ⟨rfl, rfl, rfl⟩ := hargument.enclosed hinner
    exact ⟨[], rfl, rfl⟩
  | primary kind => cases kind <;> cases terminal_eq_of_cons h
  | group => cases terminal_eq_of_cons h
  | join hjoins => cases hjoins
  | single hincludes => cases hincludes

theorem leads_group {inner : Derivation .sum} (hinner : inner.Leads) (opening : Leaf (.symbol .leftParen))
    (closing : Leaf (.symbol .rightParen)) : (group opening inner closing).Leads := by
  intro d' rest rest' h _ _
  cases d' with
  | group opening' inner' closing' =>
    obtain ⟨hopening, hbehind⟩ := List.cons.inj h
    cases Leaf.ext_token hopening
    obtain ⟨rfl, rfl, rfl⟩ := hinner.enclosed hbehind
    exact ⟨[], rfl, rfl⟩
  | primary kind => cases kind <;> cases terminal_eq_of_cons h
  | call => cases terminal_eq_of_cons h
  | join hjoins => cases hjoins
  | single hincludes => cases hincludes

theorem ends_atom (rest : List Token) : Category.atom.Ends rest :=
  ⟨fun _ _ _ _ => rfl, fun _ _ _ _ h => by cases h⟩

/-- No operator goes on with a sentence that may have a sign, and it is ended by what can follow a power. -/
theorem ends_unary (h : Category.power.Follows rest) : Category.unary.Ends rest :=
  ⟨h, fun _ _ _ _ hjoins => by cases hjoins⟩

theorem leads_pow {base : Derivation .atom} {exponent : Derivation .unary} (hbase : base.Leads)
    (hexponent : exponent.Leads) (sign : Leaf (.symbol Operator.pow.mark)) : (pow base sign exponent).Leads := by
  intro d' rest rest' h hrest hrest'
  cases d' with
  | pow base' sign' exponent' =>
    rw [tokens, tokens, append_assoc, append_assoc] at h
    obtain ⟨rfl, hbehind⟩ := hbase.eq h (ends_atom _) (ends_atom _)
    obtain ⟨hsign, hexponents⟩ := List.cons.inj hbehind
    cases Leaf.ext_token hsign
    obtain ⟨rfl, rfl⟩ := hexponent.eq hexponents (ends_unary hrest) (ends_unary hrest'.1)
    exact ⟨[], rfl, rfl⟩
  | join hjoins => cases hjoins
  | single hincludes base' =>
    -- The sign of the power would stand behind a sentence that it takes the end of.
    cases hincludes
    rw [tokens, tokens, append_assoc] at h
    obtain ⟨-, rfl⟩ := hbase.eq h (ends_atom _) (ends_atom _)
    exact absurd (hrest'.1 _ rfl .pow sign.terminal_eq) (by decide)

theorem leads_neg {operand : Derivation .unary} (hoperand : operand.Leads) (sign : Leaf (.symbol .minus)) :
    (neg sign operand).Leads := by
  intro d' rest rest' h hrest hrest'
  cases d' with
  | neg sign' operand' =>
    obtain ⟨hsign, hbehind⟩ := List.cons.inj h
    cases Leaf.ext_token hsign
    obtain ⟨rfl, rfl⟩ := hoperand.eq hbehind (ends_unary hrest) hrest'
    exact ⟨[], rfl, rfl⟩
  | join hjoins => cases hjoins
  | single hincludes only =>
    cases hincludes
    exact absurd h.symm (only.tokens_ne_minus (Or.inl rfl) sign _ _)

theorem leads_join (hjoins : Joins op c next) {left : Derivation c} {right : Derivation next}
    (hleft : left.Leads) (hright : right.Leads) (sign : Leaf (.symbol op.mark)) :
    (join hjoins left sign right).Leads := by
  intro d' rest rest' h hrest hrest'
  rw [tokens, append_assoc] at h
  -- The other derivation goes on from the left operand, so it has the operator too.
  obtain ⟨steps, rfl, hbehind⟩ :=
    hleft d' _ rest' h (Category.follows_cons sign.terminal_eq hjoins.isTighter _) hrest'
  cases steps with
  | nil =>
    rw [flatMap_nil, nil_append] at hbehind
    exact absurd sign.terminal_eq (hrest'.2 _ (by rw [← hbehind]; rfl) _ _ hjoins)
  | cons s steps =>
    obtain @⟨op', next', hjoins', sign', right'⟩ := s
    have hmark : op = op' := by
      have hterminal := terminal_eq_of_cons hbehind
      rw [Terminal.symbol.injEq] at hterminal
      exact Operator.mark_injective hterminal
    cases hmark
    cases (hjoins.unique hjoins').2
    obtain ⟨hsign, hrights⟩ := List.cons.inj hbehind
    cases Leaf.ext_token hsign
    have hrights : right.tokens ++ rest = right'.tokens ++ (steps.flatMap Step.tokens ++ rest') :=
      hrights.trans (append_assoc ..)
    obtain ⟨rfl, rfl⟩ := hright.eq hrights (hjoins.includes.ends hrest) (ends_steps hjoins.includes hrest')
    exact ⟨steps, rfl, rfl⟩

theorem leads_single (hincludes : Includes c next) {only : Derivation next} (honly : only.Leads) :
    (single hincludes only).Leads := by
  intro d' rest rest' h hrest hrest'
  by_cases hc : c = .sum ∨ c = .product
  · obtain ⟨first, steps, rfl⟩ := d'.exists_extend hincludes hc
    rw [tokens_extend, tokens, tokens, append_assoc] at h
    obtain ⟨rfl, rfl⟩ := honly.eq h (hincludes.ends hrest) (ends_steps hincludes hrest')
    exact ⟨steps, rfl, rfl⟩
  · cases d' with
    | pow base sign exponent =>
      cases hincludes
      rw [tokens, tokens, append_assoc] at h
      obtain ⟨-, rfl⟩ := honly.eq h (ends_atom _) (ends_atom _)
      exact absurd (hrest _ rfl .pow sign.terminal_eq) (by decide)
    | neg sign operand =>
      cases hincludes
      exact absurd h (only.tokens_ne_minus (Or.inl rfl) sign _ _)
    | join hjoins => cases hjoins <;> simp at hc
    | single hincludes' only' =>
      cases hincludes.unique hincludes'
      obtain ⟨rfl, rfl⟩ := honly.eq h (hincludes.ends hrest) (hincludes.ends hrest'.1)
      exact ⟨[], rfl, rfl⟩
    | primary | call | group => cases hincludes

theorem leads (d : Derivation c) : d.Leads := by
  induction d with
  | primary kind t => exact leads_primary kind t
  | call t opening argument closing ih => exact leads_call ih t opening closing
  | group opening inner closing ih => exact leads_group ih opening closing
  | pow base sign exponent ihb ihe => exact leads_pow ihb ihe sign
  | neg sign operand ih => exact leads_neg ih sign
  | join hjoins left sign right ihl ihr => exact leads_join hjoins ihl ihr sign
  | single hincludes only ih => exact leads_single hincludes ih

/-- The grammar is unambiguous. -/
theorem eq_of_tokens_eq (h : d.tokens = d'.tokens) : d = d' :=
  (d.leads.eq (congrArg (· ++ []) h) c.ends_nil c.ends_nil).1

end Derivation

end Expr

end QasmCircuit
