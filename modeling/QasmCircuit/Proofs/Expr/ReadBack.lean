import QasmCircuit.Proofs.Expr.Parsing
import QasmCircuit.Proofs.Expr.Printing

/-!
# Printed expressions read back

The text of an expression is cut into the tokens of a derivation of that expression, whose category is as tight as the
expression binds (`Expr.derives_text`): the induction is on the expression, and the parentheses of an operand stand just
where its category is not tight enough for the place. By the grammar, the reader gives this expression back.

> `Tree.text_reads_back`: the text of the tree of an expression is read as that tree.
-/

namespace QasmCircuit

open Cursor
open QasmCircuit.Tree (enclose enclosesLeft enclosesRight)

open Cursor (Gives)
open Lexeme (Ends)

variable {text rest : List Char} {spelling : String} {e : Expr} {p' : Cursor} {ch : Char}

namespace Source.Reader

variable {terminal : Terminal} {ts : List Token} {p q : Cursor} {t : Leaf terminal}

/-- The tokens of an operand stand between two points: behind them, others are read as behind an operand. -/
def Leads (ts : List Token) (p q : Cursor) : Prop :=
  ∀ last, contextBehind last = .operand → ∀ more r,
    (∀ last', contextBehind last' = .operator → Spells last' q more r) → Spells last p (ts ++ more) r

theorem exists_leaf (context : Context) (terminal : Terminal) (h : Gives context text terminal spelling rest)
    (hp : p.rest = text) :
    ∃ (t : Leaf terminal) (q : Cursor), p.next context = .ok (t.token, q) ∧ q.rest = rest ∧
    t.token.text = spelling := by
  obtain ⟨position, q, hnext, hrest⟩ := h p hp
  exact ⟨⟨_, rfl⟩, q, hnext, hrest, rfl⟩

theorem Leads.cons (h : Leads ts p' q) (hnext : p.next .operand = .ok (t.token, p'))
    (ht : contextBehind (some t.token) = .operand) : Leads (t.token :: ts) p q := by
  intro last hlast more r hmore
  refine .cons ?_ (h _ ht more r hmore)
  rw [hlast]
  exact hnext

/-- An operator leads to its right operand, and a closing parenthesis ends what it closes. -/
theorem Leads.append {q' : Cursor} {us : List Token} (h : Leads ts p q)
    (hnext : q.next .operator = .ok (t.token, q'))
    (hrest : ∀ more r, (∀ last, contextBehind last = .operator → Spells last p' more r) →
      Spells (some t.token) q' (us ++ more) r) : Leads (ts ++ t.token :: us) p p' := by
  intro last hlast more r hmore
  rw [List.append_assoc]
  refine h last hlast _ r fun last' hlast' => .cons ?_ (hrest more r hmore)
  rw [hlast']
  exact hnext

end Source.Reader

namespace Expr

open Source.Reader (Leads exists_leaf contextBehind Spells)

variable {c next : Category} {left right : Expr} {op : Operator} {m n : Nat}

/-- In front of a text stand the tokens of a derivation of an expression, up to places, so many of them, and then the
rest. -/
def Derives (c : Category) (text rest : List Char) (e : Expr) (n : Nat) : Prop :=
  ∀ p : Cursor, p.rest = text → ∃ (d : Derivation c) (q : Cursor), Leads d.tokens p q ∧ q.rest = rest ∧
    d.expr.unplaced = e.unplaced ∧ d.tokens.length = n

theorem Derives.of_le (h : Derives c text rest e n) {c' : Category} (hc : c'.level ≤ c.level) :
    Derives c' text rest e n := by
  intro p hp
  obtain ⟨d, q, hleads, hrest, hexpr⟩ := h p hp
  obtain ⟨d', htokens, hoperand⟩ := d.exists_of_le c' hc
  refine ⟨d', q, htokens ▸ hleads, hrest, ?_⟩
  rw [htokens, show d'.expr = d.expr from congrArg Operand.expr hoperand]
  exact hexpr

theorem derives_primary (kind : Primary) (hgives : Gives .operand text kind.terminal spelling rest)
    (hexpr : ∀ t : Leaf kind.terminal, t.token.text = spelling →
      (Derivation.primary kind t).expr.unplaced = e.unplaced) :
    Derives .atom text rest e 1 := by
  intro p hp
  obtain ⟨t, q, hnext, hrest, hspelling⟩ := exists_leaf _ _ hgives hp
  refine ⟨.primary kind t, q, fun last hlast more r hmore => .cons (hlast ▸ hnext) (hmore _ ?_), hrest,
    hexpr t hspelling, rfl⟩
  rw [contextBehind, t.terminal_eq]
  cases kind <;> rfl

/-- A closing parenthesis behind a sentence. -/
theorem Derives.closing (h : Derives .sum text (')' :: rest) e n) {p : Cursor} (hp : p.rest = text) :
    ∃ (d : Derivation .sum) (closing : Leaf (.symbol .rightParen)) (q : Cursor),
    Leads (d.tokens ++ [closing.token]) p q ∧
      q.rest = rest ∧ d.expr.unplaced = e.unplaced ∧ d.tokens.length = n := by
  obtain ⟨d, q, hleads, hrest, hexpr⟩ := h p hp
  obtain ⟨closing, q', hnext, hrest', -⟩ := exists_leaf .operator _ (gives_mark rfl) hrest
  refine ⟨d, closing, q', hleads.append hnext fun more r hmore => hmore _ ?_, hrest', hexpr⟩
  rw [contextBehind, closing.terminal_eq]

theorem derives_group (h : Derives .sum text (')' :: rest) e n) : Derives .atom ('(' :: text) rest e (n + 2) := by
  intro p hp
  obtain ⟨opening, p', hnext, hp', -⟩ := exists_leaf .operand (.symbol .leftParen) (gives_mark rfl) hp
  obtain ⟨d, closing, q, hleads, hrest, hexpr, hcount⟩ := h.closing hp'
  refine ⟨.group opening d closing, q, hleads.cons hnext ?_, hrest, hexpr, by simp [Derivation.tokens, hcount]⟩
  rw [contextBehind, opening.terminal_eq]

theorem derives_call (h : Derives .sum text (')' :: rest) e n) (position : Position) (f : Function) :
    Derives .atom ((Keyword.function f).text.toList ++ '(' :: text) rest (.call position f e) (n + 3) := by
  intro p hp
  obtain ⟨name, p', hname, hp', -⟩ := exists_leaf .operand (.keyword (.function f))
    (gives_keyword (by cases f <;> rfl) (Lexeme.ends_cons rfl) rfl) hp
  obtain ⟨opening, p'', hopening, hp'', -⟩ := exists_leaf .any (.symbol .leftParen) (gives_mark rfl) hp'
  obtain ⟨d, closing, q, hleads, hrest, hexpr, hcount⟩ := h.closing hp''
  refine ⟨.call name opening d closing, q, fun last hlast more r hmore => ?_, hrest, ?_, by
    simp [Derivation.tokens, hcount]⟩
  · refine .cons (hlast ▸ hname) (.cons ?_ (hleads _ ?_ more r hmore))
    · rw [contextBehind, name.terminal_eq]
      exact hopening
    · rw [contextBehind, opening.terminal_eq]
  · simp only [Derivation.expr, unplaced, hexpr]

theorem derives_neg (h : Derives .unary text rest e n) (position : Position) :
    Derives .unary ('-' :: text) rest (.neg position e) (n + 1) := by
  intro p hp
  obtain ⟨sign, p', hnext, hp', -⟩ := exists_leaf .operand (.symbol .minus)
    (gives_symbol rfl (fun _ => rfl) (by simp)) hp
  obtain ⟨d, q, hleads, hrest, hexpr, hcount⟩ := h p' hp'
  refine ⟨.neg sign d, q, hleads.cons hnext ?_, hrest, ?_, congrArg (· + 1) hcount⟩
  · rw [contextBehind, sign.terminal_eq]
  · simp only [Derivation.expr, unplaced, hexpr]

theorem operator_symbol (op : Operator) : ∃ ch, op.symbol = String.ofList [ch] ∧ Symbol.ofChar? ch = some op.mark ∧
    Lexeme.isBreak ch := by
  cases op with
  | add => exact ⟨'+', rfl, rfl, rfl⟩
  | sub => exact ⟨'-', rfl, rfl, rfl⟩
  | mul => exact ⟨'*', rfl, rfl, rfl⟩
  | div => exact ⟨'/', rfl, rfl, rfl⟩
  | pow => exact ⟨'^', rfl, rfl, rfl⟩

theorem ends_operator (op : Operator) (rest : List Char) : Ends (op.symbol.toList ++ rest) := by
  obtain ⟨ch, hsymbol, -, hbreak⟩ := operator_symbol op
  rw [hsymbol, String.toList_ofList]
  exact Lexeme.ends_cons hbreak

/-- An operator between its operands, by the rule that makes one sentence of them. -/
theorem derives_binary {whole : Category}
    (rule : Derivation c → Leaf (.symbol op.mark) → Derivation next → Derivation whole)
    (htokens : ∀ l s r, (rule l s r).tokens = l.tokens ++ s.token :: r.tokens)
    (hexpr : ∀ l s r, (rule l s r).expr = .binary l.start op l.expr r.expr) {between : List Char}
    (hl : Derives c text (op.symbol.toList ++ between) left m) (hr : Derives next between rest right n)
    (hslash : between.head? ≠ some '/') (position : Position) :
    Derives whole text rest (.binary position op left right) (m + (n + 1)) := by
  intro p hp
  obtain ⟨l, q, hleads, hrest, hleft, hm⟩ := hl p hp
  obtain ⟨ch, hsymbol, hchar, -⟩ := operator_symbol op
  rw [hsymbol, String.toList_ofList] at hrest
  obtain ⟨sign, q', hnext, hrest', -⟩ := exists_leaf .operator (.symbol op.mark)
    (gives_symbol hchar (fun _ => rfl) fun _ => hslash) hrest
  obtain ⟨r, q'', hleads', hrest'', hright, hn⟩ := hr q' hrest'
  refine ⟨rule l sign r, q'', ?_, hrest'', ?_, by simp [htokens, hm, hn]⟩
  · rw [htokens]
    refine hleads.append hnext (hleads' _ ?_)
    rw [contextBehind, sign.terminal_eq]
    cases op <;> rfl
  · simp only [hexpr, unplaced, hleft, hright]

/-! ## Texts -/

theorem toList_binary (p : Position) (op : Operator) (left right : Expr) : (Expr.binary p op left right).text.toList =
      (enclose (enclosesLeft op left.level) left.text).toList ++
        (op.symbol.toList ++ (enclose (enclosesRight op right.level) right.text).toList) := by
  simp only [text, Tree.printBinary, String.toList_append, List.append_assoc]

/-- No operand begins with a slash, so that a slash in front of it begins no comment. -/
theorem enclosed_cons {s : String} (h : ∃ c cs, s.toList = c :: cs ∧ c ≠ '/') (needed : Bool) :
    ∃ c cs, (enclose needed s).toList = c :: cs ∧ c ≠ '/' := by
  cases needed with
  | false => exact h
  | true => exact ⟨'(', s.toList ++ [')'], by simp [enclose], by decide⟩

theorem text_cons (h : e.Spelled) : ∃ c cs, e.text.toList = c :: cs ∧ c ≠ '/' := by
  induction e with
  | number p text =>
    obtain ⟨c, cs, hl, hc⟩ := Lexeme.isNumber_cons h
    refine ⟨c, cs, hl, ?_⟩
    rintro rfl
    exact absurd hc (by decide)
  | pi p => exact ⟨'p', ['i'], by rw [text]; decide, by decide⟩
  | param p name =>
    obtain ⟨c, cs, hl, hc, -⟩ := Lexeme.isWord_iff.mp h.1
    refine ⟨c, cs, hl, ?_⟩
    rintro rfl
    exact absurd hc (by decide)
  | call p f argument ih =>
    obtain ⟨c, cs, hl, hc⟩ : ∃ c cs, f.text.toList = c :: cs ∧ c ≠ '/' := by
      cases f <;> exact ⟨_, _, rfl, by decide⟩
    exact ⟨c, _, by simp only [text, String.toList_append, hl, List.cons_append]; rfl, hc⟩
  | neg p operand ih => exact ⟨'-', _, by rw [text, String.toList_append]; rfl, by decide⟩
  | binary p op left right ihl ihr =>
    obtain ⟨c, cs, hl, hc⟩ := enclosed_cons (ihl h.1) (enclosesLeft op left.level)
    exact ⟨c, _, by rw [toList_binary, hl, List.cons_append], hc⟩

/-- The category of the text of an expression. -/
def category : Expr → Category
  | .neg .. => .unary
  | .binary _ .pow .. => .power
  | .binary _ .add .. | .binary _ .sub .. => .sum
  | .binary _ .mul .. | .binary _ .div .. => .product
  | _ => .atom

theorem level_category (e : Expr) : e.category.level = e.level := by
  cases e with
  | binary p op left right => cases op <;> rfl
  | _ => rfl

/-- The number of tokens of what may stand in parentheses. -/
def enclosedCount (needed : Bool) (n : Nat) : Nat := if needed then n + 2 else n

/-- The number of tokens of the text of an expression. -/
def tokenCount : Expr → Nat
  | .call _ _ argument => argument.tokenCount + 3
  | .neg _ operand => enclosedCount (operand.level < negationLevel) operand.tokenCount + 1
  | .binary _ op left right => enclosedCount (enclosesLeft op left.level) left.tokenCount +
      (enclosedCount (enclosesRight op right.level) right.tokenCount + 1)
  | _ => 1

/-- An expression as an operand: in parentheses it is an atom, and without them it is tight enough. -/
theorem derives_operand (h : ∀ rest, Ends rest → Derives e.category (e.text.toList ++ rest) rest e n) {needed : Bool}
    (hc : needed = false → c.level ≤ e.level) (hrest : Ends rest) :
    Derives c ((enclose needed e.text).toList ++ rest) rest e (enclosedCount needed n) := by
  cases needed with
  | false => exact (h rest hrest).of_le (e.level_category ▸ hc rfl)
  | true =>
    have htext : (enclose true e.text).toList ++ rest = '(' :: (e.text.toList ++ ')' :: rest) := by
      simp [enclose]
    rw [htext]
    refine (derives_group ((h _ (Lexeme.ends_cons rfl)).of_le ?_)).of_le (by cases c <;> decide)
    exact e.category.one_le_level

/-- The text of an expression has a derivation of it. -/
theorem derives_text (h : e.Spelled) (hrest : Ends rest) :
    Derives e.category (e.text.toList ++ rest) rest e e.tokenCount := by
  induction e generalizing rest with
  | number p text =>
    exact derives_primary .number (gives_number h hrest rfl) fun t ht => congrArg (Expr.number .origin) ht
  | pi p => exact derives_primary .pi (gives_keyword (k := .pi) rfl hrest rfl) fun _ _ => rfl
  | param p name =>
    exact derives_primary .name (gives_name h.1 h.2 hrest rfl) fun t ht => congrArg (Expr.param .origin) ht
  | call p f argument ih =>
    have htext : (Expr.call p f argument).text.toList ++ rest =
        (Keyword.function f).text.toList ++ '(' :: (argument.text.toList ++ ')' :: rest) := by
      simp [text, Keyword.text]
    rw [htext]
    refine derives_call ((ih h (Lexeme.ends_cons rfl)).of_le ?_) p f
    exact argument.category.one_le_level
  | neg p operand ih =>
    have htext : (Expr.neg p operand).text.toList ++ rest =
        '-' :: ((enclose (operand.level < negationLevel) operand.text).toList ++ rest) := by
      rw [text, String.toList_append]
      rfl
    rw [htext]
    exact derives_neg (derives_operand (fun _ => ih h) (fun hc => not_lt.mp (of_decide_eq_false hc)) hrest) p
  | binary p op left right ihl ihr =>
    obtain ⟨ch, cs, hcons, hch⟩ := enclosed_cons (text_cons h.2) (enclosesRight op right.level)
    have hslash : ((enclose (enclosesRight op right.level) right.text).toList ++ rest).head? ≠ some '/' := by
      rw [hcons]
      simpa using hch
    have hl {c : Category} (hc : enclosesLeft op left.level = false → c.level ≤ left.level) :=
      derives_operand (fun _ => ihl h.1) hc (ends_operator op
        ((enclose (enclosesRight op right.level) right.text).toList ++ rest))
    have hr {c : Category} (hc : enclosesRight op right.level = false → c.level ≤ right.level) :=
      derives_operand (fun _ => ihr h.2) hc hrest
    rw [toList_binary, List.append_assoc, List.append_assoc]
    by_cases hpow : op = .pow
    · subst hpow
      exact derives_binary .pow (fun _ _ _ => rfl) (fun _ _ _ => rfl) (hl fun hc => not_le.mp (of_decide_eq_false hc))
        (hr fun hc => not_lt.mp (of_decide_eq_false hc)) hslash p
    · obtain ⟨c, next, hjoins⟩ := exists_joins hpow
      have hcategory : (Expr.binary p op left right).category = c := by cases hjoins <;> rfl
      rw [hcategory]
      refine derives_binary (.join hjoins) (fun _ _ _ => rfl) (fun _ _ _ => rfl) (hl fun hc => ?_)
        (hr fun hc => ?_) hslash p
      · rw [enclosesLeft, if_neg hpow, hjoins.level] at hc
        exact not_lt.mp (of_decide_eq_false hc)
      · rw [enclosesRight, if_neg hpow, hjoins.level] at hc
        rw [hjoins.includes.level]
        exact not_le.mp (of_decide_eq_false hc)

end Expr

namespace Source.Reader

/-- What ends a parameter: the comma in front of the next one, or the closing parenthesis. -/
def IsEnding (ch : Char) (s : Symbol) : Prop := (ch = ',' ∧ s = .comma) ∨ (ch = ')' ∧ s = .rightParen)

theorem ends_of_isEnding {s : Symbol} (h : IsEnding ch s) (rest : List Char) : Ends (ch :: rest) := by
  rcases h with ⟨rfl, -⟩ | ⟨rfl, -⟩ <;> exact Lexeme.ends_cons rfl

theorem expression_of_spelled (he : e.Spelled) {symbol : Symbol}
    (hch : IsEnding ch symbol) {c : Cursor} (hc : c.rest = e.text.toList ++ ch :: rest) :
    ∃ e' p c', expression c = .ok ((e', ⟨.symbol symbol, String.ofList [ch], p⟩), c') ∧
      c'.rest = rest ∧ e'.unplaced = e.unplaced := by
  have hderives : Expr.Derives .sum (e.text.toList ++ ch :: rest) (ch :: rest) e e.tokenCount :=
    (Expr.derives_text he (ends_of_isEnding hch rest)).of_le e.category.one_le_level
  obtain ⟨d, q, hleads, hrest, hexpr, -⟩ := hderives c hc
  have hgives : Gives .operator (ch :: rest) (.symbol symbol) (String.ofList [ch]) rest := by
    rcases hch with ⟨rfl, rfl⟩ | ⟨rfl, rfl⟩ <;> exact gives_mark rfl
  obtain ⟨p, c', hnext, hrest'⟩ := hgives q hrest
  have hspells := hleads none rfl [] q fun _ _ => .nil
  rw [List.append_nil] at hspells
  refine ⟨d.expr, p, c', expression_eq_ok.mpr ⟨_, q, hspells, hnext, ?_, Expr.ofTokens?_eq_some.mpr ⟨d, rfl, rfl⟩⟩,
    hrest',
    hexpr⟩
  exact hch.imp (fun h => congrArg Terminal.symbol h.2) fun h => congrArg Terminal.symbol h.2

end Source.Reader

/-- The text of the tree of an expression is an expression again, in front of either symbol that can end one,
and it has the same tree: the same labels, and tokens of the same kinds and spellings. -/
theorem Tree.text_reads_back {t : Tree} (h : t.IsExpression) :
    ∃ s, t.text = .ok s ∧ ∀ (ch : Char) (rest : List Char) (c : Cursor), ch = ',' ∨ ch = ')' →
      c.rest = s.toList ++ ch :: rest →
        ∃ e token c', Source.Reader.expression c = .ok ((e, token), c') ∧
          e.toTree.unplaced = t.unplaced ∧ token.text = String.ofList [ch] ∧ c'.rest = rest := by
  obtain ⟨e, hspelled, htree, hprint⟩ := h.exists_expr
  refine ⟨e.text, by rw [text, hprint]; rfl, fun ch rest c hch hc => ?_⟩
  obtain ⟨symbol, hsymbol⟩ : ∃ symbol,
      (ch = ',' ∧ symbol = Symbol.comma) ∨ (ch = ')' ∧ symbol = Symbol.rightParen) := by
    rcases hch with rfl | rfl
    · exact ⟨.comma, Or.inl ⟨rfl, rfl⟩⟩
    · exact ⟨.rightParen, Or.inr ⟨rfl, rfl⟩⟩
  obtain ⟨e', p, c', hread, hrest, hunplaced⟩ := Source.Reader.expression_of_spelled hspelled hsymbol hc
  refine ⟨e', _, c', hread, ?_, rfl, hrest⟩
  rw [htree, ← Expr.toTree_unplaced, ← Expr.toTree_unplaced e, hunplaced]

/-- A minus sign to the left of a power keeps its parentheses. -/
theorem Tree.text_reads_back_negated_base :
    let t := Tree.node "pow" none
      [.node "neg" none [.node "param_ref" none [.token "CNAME" "a" none none]],
        .node "number" none [.token "NUMBER" "2.5e-3" none none]]
    t.IsExpression ∧ ∃ s, t.text = .ok s ∧ ∀ (ch : Char) (rest : List Char) (c : Cursor),
      ch = ',' ∨ ch = ')' → c.rest = s.toList ++ ch :: rest →
        ∃ e token c', Source.Reader.expression c = .ok ((e, token), c') ∧
          e.toTree.unplaced = t.unplaced ∧ token.text = String.ofList [ch] ∧ c'.rest = rest := by
  intro t
  have h : t.IsExpression :=
    @IsExpression.binary none .pow _ _ (.neg (.param (by decide) (by decide))) (.number (by decide))
  exact ⟨h, Tree.text_reads_back h⟩

end QasmCircuit
