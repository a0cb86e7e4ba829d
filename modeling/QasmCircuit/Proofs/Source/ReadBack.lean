import QasmCircuit.Proofs.Source.Spelling
import QasmCircuit.Proofs.Expr.ReadBack

/-!
# Spelled programs read back

One lemma for each rule of the grammar: in front of the canonical text of a part, and of something that can
follow it, the reader of the rule gives that part back, up to places, and stops behind it. The text in front
of a rule may begin with white space, so the first token is a hypothesis (`Cursor.Gives`) wherever that
matters.

> `Source.parse_text`: the text of a spelled program is read as that program.
-/

namespace QasmCircuit.Source.Reader

open Cursor (Gives)
open Lexeme (isWord ends_cons)
open Cursor (gives_mark gives_integer isSpace gives_keyword)
open List (flatMap_cons length_append length_cons append_assoc map_cons mem_cons_self map_singleton mem_cons_of_mem)
open Lexeme (Ends)

variable {α : Type} {P : α → Prop} {context : Context} {ch : Char} {e : Expr}

/-- In front of a text the reader succeeds, stops in front of the rest, and gives something with a
property. -/
def Reads {α : Type} (r : Reader α) (text rest : List Char) (P : α → Prop) : Prop :=
  ∀ c : Cursor, c.rest = text → ∃ a c', r c = .ok (a, c') ∧ c'.rest = rest ∧ P a

theorem Reads.bind {β : Type} {r : Reader α} {f : α → Reader β} {text between rest : List Char} {Q : β → Prop}
    (h : Reads r text between P) (h' : ∀ a, P a → Reads (f a) between rest Q) : Reads (r >>= f) text rest Q := by
  intro c hc
  obtain ⟨a, c₁, hr, hc₁, hP⟩ := h c hc
  obtain ⟨b, c₂, hf, hc₂, hQ⟩ := h' a hP c₁ hc₁
  refine ⟨b, c₂, ?_, hc₂, hQ⟩
  show (r c >>= fun p => f p.1 p.2) = _
  rw [hr]
  exact hf

variable {text : List Char} {w : Word} {follow rest : List Char}

theorem Reads.pure {a : α} (h : P a) : Reads (Pure.pure a) text text P :=
  fun c hc => ⟨a, c, rfl, hc, h⟩

variable {text rest : List Char} {terminal : Terminal} {spelling : String} {s : Symbol} {r : Reference}
  {follow : List Char} {rs : List Reference} {n : Nat} {token : Token} {operands : List Reference}
  {qubit clbit : Reference} {ws : List Word} {u w : Word} {ending : Symbol} {body : List BodyStatement}
  {args : List Word}

theorem Reads.mono {r : Reader α} {Q : α → Prop} (h : Reads r text rest P)
    (hPQ : ∀ a, P a → Q a) : Reads r text rest Q := by
  intro c hc
  obtain ⟨a, c', hr, hc', hP⟩ := h c hc
  exact ⟨a, c', hr, hc', hPQ a hP⟩

/-! ## Tokens -/

theorem reads_next (h : Gives context text terminal spelling rest) :
    Reads (next context) text rest fun token => token.terminal = terminal ∧ token.text = spelling := by
  intro c hc
  obtain ⟨p, c', hnext, hrest⟩ := h c hc
  exact ⟨_, c', hnext, hrest, rfl, rfl⟩

theorem reads_expect (h : Gives context text terminal spelling rest) :
    Reads (expect context terminal) text rest fun token => token.text = spelling := by
  refine (reads_next h).bind ?_
  rintro token ⟨hterminal, htext⟩
  rw [if_pos hterminal]
  exact Reads.pure htext

theorem reads_symbol (h : Gives .any text (.symbol s) spelling rest) : Reads (symbol s) text rest fun _ => True :=
  (reads_expect h).mono fun _ _ => trivial

theorem reads_name {s : String} (h : Gives .name text .name s rest) : Reads name text rest fun w => w.text = s :=
  (reads_expect h).bind fun _ htext => Reads.pure htext

theorem reads_integer {s : String} (h : Gives .integer text .integer s rest) :
    Reads integer text rest fun w => w.text = s :=
  (reads_expect h).bind fun _ htext => Reads.pure htext

theorem reads_rounds (text : List Char) : Reads rounds text text fun n => n = text.length + 1 :=
  fun c hc => ⟨c.rest.length + 1, c, rfl, hc, by rw [hc]⟩

theorem gives_word {s : String} (hs : isWord s) (hrest : Ends rest) : Gives .name (s.toList ++ rest) .name s rest :=
  Cursor.gives_name hs rfl hrest rfl

/-- A list has no more members than its text has commas. -/
theorem length_le_flatMap (f : α → List Char) (xs : List α) : xs.length ≤ (xs.flatMap fun x => ',' :: f x).length := by
  induction xs with
  | nil => exact Nat.le_refl _
  | cons x xs ih =>
    rw [flatMap_cons, length_append, length_cons, length_cons]
    omega

/-! ## References -/

theorem ends_indexText (h : Ends follow) : Ends (r.indexText.toList ++ follow) := by
  unfold Reference.indexText
  split
  · exact h
  · rw [String.toList_append, String.toList_append]
    exact ends_cons rfl

theorem reads_referenceAfter (hr : r.Spelled) (hw : w.text = r.name.text) (hs : s ≠ .leftBracket)
    (hfollow : Gives .any follow (.symbol s) spelling rest) :
    Reads (referenceAfter w) (r.indexText.toList ++ follow) rest fun x =>
      x.1.unplaced = r.unplaced ∧ x.2.terminal = .symbol s := by
  have hname : w.unplaced = r.name.unplaced := by rw [Word.unplaced, Word.unplaced, hw]
  cases hindex : r.index with
  | none =>
    rw [Reference.indexText, hindex]
    refine (reads_next hfollow).bind ?_
    rintro token ⟨hterminal, -⟩
    rw [hterminal, if_neg (fun h => hs (Terminal.symbol.inj h))]
    refine Reads.pure ⟨?_, hterminal⟩
    rw [Reference.unplaced, Reference.unplaced, hname, hindex]
  | some i =>
    have htext : r.indexText.toList ++ follow = '[' :: (i.text.toList ++ ']' :: follow) := by
      simp [Reference.indexText, hindex]
    rw [htext]
    refine Reads.bind (reads_next (gives_mark rfl)) ?_
    rintro token ⟨hterminal, -⟩
    rw [if_pos hterminal]
    refine (reads_integer (gives_integer (hr.2 i hindex) (ends_cons rfl) rfl)).bind ?_
    intro j hj
    refine Reads.bind (reads_symbol (gives_mark rfl)) ?_
    rintro _ -
    refine (reads_next hfollow).bind ?_
    rintro token ⟨hterminal, -⟩
    refine Reads.pure ⟨?_, hterminal⟩
    have hj' : j.unplaced = i.unplaced := by rw [Word.unplaced, Word.unplaced, hj]
    rw [Reference.unplaced, Reference.unplaced, hname, hindex, Option.map_some, Option.map_some, hj']

theorem gives_reference (hr : r.Spelled) (h : Ends follow) :
    Gives .name (r.text.toList ++ follow) .name r.name.text (r.indexText.toList ++ follow) := by
  rw [Reference.text, String.toList_append, append_assoc]
  exact gives_word hr.1 (ends_indexText h)

theorem reads_referenceBefore (hr : r.Spelled) (hs : s ≠ .leftBracket)
    (hname : Gives .name text .name r.name.text (r.indexText.toList ++ follow))
    (hfollow : Gives .any follow (.symbol s) spelling rest) :
    Reads (referenceBefore s) text rest fun r' => r'.unplaced = r.unplaced := by
  refine (reads_name hname).bind ?_
  intro w hw
  refine (reads_referenceAfter hr hw hs hfollow).bind ?_
  rintro ⟨r', token⟩ ⟨hr', hterminal⟩
  show Reads (if token.terminal = .symbol s then pure r' else unexpected token) _ _ _
  rw [if_pos hterminal]
  exact Reads.pure hr'

/-- References behind the first one, each with a comma in front. -/
def moreReferences (rs : List Reference) : List Char := rs.flatMap fun r => ',' :: r.text.toList

theorem toList_referencesText (r : Reference) (rs : List Reference) :
    (referencesText (r :: rs)).toList = r.text.toList ++ moreReferences rs := by
  rw [referencesText, map_cons, toList_join, List.flatMap_map]
  rfl

theorem ends_moreReferences (rs : List Reference) : Ends (moreReferences rs ++ ';' :: rest) := by
  cases rs <;> exact ends_cons rfl

section

variable (hspelled : ∀ x ∈ r :: rs, x.Spelled)

include hspelled

theorem reads_references (hw : w.text = r.name.text) (hn : rs.length < n) :
    Reads (references n w) (r.indexText.toList ++ (moreReferences rs ++ ';' :: rest)) rest fun rs' =>
      rs'.map Reference.unplaced = (r :: rs).map Reference.unplaced := by
  induction rs generalizing r w n with
  | nil =>
    obtain ⟨n, rfl⟩ : ∃ m, n = m + 1 := ⟨n - 1, by omega⟩
    refine Reads.bind (reads_referenceAfter (hspelled r mem_cons_self) hw (by decide) (gives_mark rfl)) ?_
    rintro ⟨r', token⟩ ⟨hr', hterminal⟩
    dsimp only
    rw [hterminal]
    exact Reads.pure (by rw [map_singleton, map_singleton, hr'])
  | cons x xs ih =>
    obtain ⟨n, rfl⟩ : ∃ m, n = m + 1 := ⟨n - 1, by omega⟩
    have hx := hspelled x (mem_cons_of_mem _ mem_cons_self)
    have htext : moreReferences (x :: xs) ++ ';' :: rest =
        ',' :: (x.text.toList ++ (moreReferences xs ++ ';' :: rest)) := by
      rw [moreReferences, flatMap_cons, append_assoc]
      rfl
    rw [htext]
    refine Reads.bind (reads_referenceAfter (hspelled r mem_cons_self) hw (by decide) (gives_mark rfl)) ?_
    rintro ⟨r', token⟩ ⟨hr', hterminal⟩
    dsimp only
    rw [hterminal]
    refine (reads_name (gives_reference hx (ends_moreReferences xs))).bind ?_
    intro w' hw'
    refine (ih (fun y hy => hspelled y (mem_cons_of_mem _ hy)) hw' (by rw [length_cons] at hn; omega)).bind ?_
    intro rs' hrs'
    exact Reads.pure (by rw [map_cons, hr', hrs', ← map_cons])

/-- The rounds that the length of the text allows are enough. -/
theorem reads_references_rounds (hw : w.text = r.name.text)
    (hn : n = (r.indexText.toList ++ (moreReferences rs ++ ';' :: rest)).length + 1) :
    Reads (references n w) (r.indexText.toList ++ (moreReferences rs ++ ';' :: rest)) rest
      fun rs' => rs'.map Reference.unplaced = (r :: rs).map Reference.unplaced := by
  refine reads_references hspelled hw ?_
  have hlength : rs.length ≤ (moreReferences rs).length := length_le_flatMap _ rs
  rw [hn, length_append, length_append]
  omega

theorem reads_referenceList (hname : Gives .name text .name r.name.text
      (r.indexText.toList ++ (moreReferences rs ++ ';' :: rest))) : Reads referenceList text rest fun rs' =>
      rs'.map Reference.unplaced = (r :: rs).map Reference.unplaced :=
  (reads_name hname).bind fun _ hw =>
    (reads_rounds _).bind fun _ hn => reads_references_rounds hspelled hw hn

/-! ## Parameters -/

end

theorem reads_expression (he : e.Spelled) (hch : IsEnding ch s) :
    Reads expression (e.text.toList ++ ch :: rest) rest fun x =>
      x.1.unplaced = e.unplaced ∧ x.2.terminal = .symbol s := by
  intro c hc
  obtain ⟨e', p, c', hread, hrest, hunplaced⟩ := expression_of_spelled he hch hc
  exact ⟨_, c', hread, hrest, hunplaced, rfl⟩

theorem reads_expressionBefore (he : e.Spelled) (hch : IsEnding ch s) :
    Reads (expressionBefore s) (e.text.toList ++ ch :: rest) rest fun e' => e'.unplaced = e.unplaced := by
  refine (reads_expression he hch).bind ?_
  rintro ⟨e', token⟩ ⟨he', hterminal⟩
  show Reads (if token.terminal = .symbol s then pure e' else unexpected token) _ _ _
  rw [if_pos hterminal]
  exact Reads.pure he'

/-- Expressions behind the first one, each with a comma in front. -/
def moreExpressions (es : List Expr) : List Char := es.flatMap fun e => ',' :: e.text.toList

/-- Behind an expression stands what ends it. -/
theorem moreExpressions_cons (es : List Expr) (rest : List Char) : ∃ ch s after,
    moreExpressions es ++ ')' :: rest = ch :: after ∧ IsEnding ch s ∧ es.length ≤ after.length := by
  cases es with
  | nil => exact ⟨')', .rightParen, rest, rfl, Or.inr ⟨rfl, rfl⟩, Nat.zero_le _⟩
  | cons e es =>
    refine ⟨',', .comma, _, rfl, Or.inl ⟨rfl, rfl⟩, ?_⟩
    have hlength : es.length ≤ (moreExpressions es).length := length_le_flatMap _ es
    show es.length + 1 ≤ (e.text.toList ++ moreExpressions es ++ ')' :: rest).length
    rw [length_append, length_append, length_cons]
    omega

theorem reads_expressionsAfter {es : List Expr} (hes : ∀ x ∈ es, x.Spelled)
    {after : List Char} (htext : moreExpressions es ++ ')' :: rest = ch :: after) (hch : IsEnding ch s)
    (htoken : token.terminal = .symbol s) {n : Nat} (hn : es.length < n) :
    Reads (expressionsAfter n e token) after rest fun es' => es'.map Expr.unplaced = (e :: es).map Expr.unplaced := by
  induction es generalizing e token ch s after n with
  | nil =>
    obtain ⟨n, rfl⟩ : ∃ m, n = m + 1 := ⟨n - 1, by omega⟩
    obtain ⟨rfl, rfl⟩ := List.cons.inj htext
    rcases hch with ⟨hne, -⟩ | ⟨-, rfl⟩
    · exact absurd hne (by decide)
    · rw [expressionsAfter, htoken, if_neg (by decide)]
      exact Reads.pure rfl
  | cons x xs ih =>
    obtain ⟨n, rfl⟩ : ∃ m, n = m + 1 := ⟨n - 1, by omega⟩
    obtain ⟨ch', s', after', htext', hch', -⟩ := moreExpressions_cons xs rest
    have hcons : moreExpressions (x :: xs) ++ ')' :: rest = ',' :: (x.text.toList ++ ch' :: after') := by
      rw [← htext', moreExpressions, flatMap_cons, append_assoc]
      rfl
    rw [hcons] at htext
    obtain ⟨rfl, rfl⟩ := List.cons.inj htext
    rcases hch with ⟨-, rfl⟩ | ⟨hne, -⟩
    · rw [expressionsAfter, htoken, if_pos rfl]
      refine (reads_expression (hes x mem_cons_self) hch').bind ?_
      rintro ⟨x', token'⟩ ⟨hx', htoken'⟩
      refine (ih (fun y hy => hes y (mem_cons_of_mem _ hy)) htext' hch' htoken'
        (by rw [length_cons] at hn; omega)).bind ?_
      intro es' hes'
      refine Reads.pure ?_
      rw [map_cons, hes', map_cons, hx', map_cons, map_cons]
    · exact absurd hne (by decide)

theorem unexpected_ne_ok {c : Cursor} {x : α × Cursor} : (unexpected token : Reader α) c ≠ .ok x := by
  show Except.error _ ≠ Except.ok x
  exact fun h => nomatch h

/-- Parameters that begin with an expression: an expression does not begin with a closing parenthesis. -/
theorem params_eq {opening : Token} {c c' : Cursor} (h : expression c = .ok ((e, token), c')) : params opening c = (do
      let es ← expressionsAfter (← rounds) e token
      pure (⟨opening.position, es⟩ : Params) : Reader Params) c' := by
  have hexpression : expression c =
      c.next .operand >>= fun p => expressionFrom (c.rest.length + 1) .start p.1 p.2 := rfl
  rw [hexpression] at h
  cases hnext : c.next .operand with
  | error fault => rw [hnext] at h; exact absurd h (by simp [bind, Except.bind])
  | ok p =>
    obtain ⟨first, c₁⟩ := p
    rw [hnext] at h
    replace h : expressionFrom (c.rest.length + 1) .start first c₁ = .ok ((e, token), c') := h
    have hfirst : first.terminal ≠ .symbol .rightParen := by
      intro hfirst
      rw [expressionFrom, Expr.Machine.step, Expr.Machine.start] at h
      simp only [hfirst] at h
      exact unexpected_ne_ok h
    show (c.next .operand >>= fun p => (if p.1.terminal = .symbol .rightParen then _ else _ : Reader _) p.2) = _
    rw [hnext]
    show (if first.terminal = .symbol .rightParen then _ else _ : Reader _) c₁ = _
    rw [if_neg hfirst]
    show (expressionFrom (c.rest.length + 1) .start first c₁ >>= _) = _
    rw [h]
    rfl

theorem reads_params {es : List Expr} (hes : ∀ x ∈ es, x.Spelled) (opening : Token) :
    Reads (params opening) ((Text.join "," (es.map Expr.text)).toList ++ ')' :: rest) rest fun ps =>
      ps.unplaced = ⟨.origin, es.map Expr.unplaced⟩ := by
  cases es with
  | nil =>
    refine (reads_rounds _).bind ?_
    intro n _
    refine Reads.bind (reads_next (gives_mark rfl)) ?_
    rintro token ⟨hterminal, -⟩
    rw [if_pos hterminal]
    exact Reads.pure rfl
  | cons e es =>
    obtain ⟨ch, s, after, htext, hch, hlength⟩ := moreExpressions_cons es rest
    have hjoin : (Text.join "," ((e :: es).map Expr.text)).toList ++ ')' :: rest = e.text.toList ++ ch :: after := by
      rw [map_cons, toList_join, List.flatMap_map, append_assoc, ← htext]
      rfl
    intro c hc
    obtain ⟨⟨e', token⟩, c₁, hexpression, hc₁, he', htoken⟩ :=
      reads_expression (hes e mem_cons_self) hch c (hc.trans hjoin)
    rw [params_eq hexpression]
    refine Reads.bind (Q := fun ps : Params => ps.unplaced = _) (reads_rounds after) ?_ c₁ hc₁
    rintro n rfl
    refine (reads_expressionsAfter (fun y hy => hes y (mem_cons_of_mem _ hy)) htext hch htoken (by omega)).bind ?_
    intro es' hes'
    refine Reads.pure ?_
    rw [Params.unplaced, hes', map_cons, map_cons, he']

/-! ## Operations -/

theorem isSpace_blank : isSpace ' ' := rfl

theorem ends_semicolon : Ends (';' :: rest) := ends_cons rfl

theorem gives_semicolon : Gives context (';' :: rest) (.symbol .semicolon) ";" rest :=
  gives_mark rfl

theorem reads_unitary {theta phi lam : Expr} {target : Reference} (htheta : theta.Spelled)
    (hphi : phi.Spelled) (hlam : lam.Spelled) (htarget : target.Spelled) (p : Position) :
    Reads (unitary p) ('(' :: (theta.text.toList ++ ',' :: (phi.text.toList ++ ',' :: (lam.text.toList ++
        ')' :: ' ' :: (target.text.toList ++ ';' :: rest))))) rest
      fun op => op.unplaced = (Operation.unitary p theta phi lam target).unplaced := by
  refine Reads.bind (reads_symbol (gives_mark rfl)) fun _ _ => ?_
  refine (reads_expressionBefore htheta (Or.inl ⟨rfl, rfl⟩)).bind fun theta' htheta' => ?_
  refine (reads_expressionBefore hphi (Or.inl ⟨rfl, rfl⟩)).bind fun phi' hphi' => ?_
  refine (reads_expressionBefore hlam (Or.inr ⟨rfl, rfl⟩)).bind fun lam' hlam' => ?_
  refine (reads_referenceBefore htarget (by decide)
    ((gives_reference htarget ends_semicolon).space isSpace_blank) gives_semicolon).bind
    fun target' htarget' => ?_
  refine Reads.pure ?_
  rw [Operation.unplaced, Operation.unplaced, htheta', hphi', hlam', htarget']

theorem reads_controlledNot {control target : Reference} (hcontrol : control.Spelled)
    (htarget : target.Spelled) (p : Position) :
    Reads (controlledNot p) (' ' :: (control.text.toList ++ ',' :: (target.text.toList ++ ';' :: rest)))
      rest fun op => op.unplaced = (Operation.controlledNot p control target).unplaced := by
  refine Reads.bind (reads_referenceBefore hcontrol (by decide)
    ((gives_reference hcontrol (ends_cons rfl)).space isSpace_blank)
    (gives_mark rfl)) fun control' hcontrol' => ?_
  refine (reads_referenceBefore htarget (by decide)
    (gives_reference htarget ends_semicolon) gives_semicolon).bind fun target' htarget' => ?_
  refine Reads.pure ?_
  rw [Operation.unplaced, Operation.unplaced, hcontrol', htarget']

/-- The first of some references begins their text. -/
theorem gives_references (hspelled : ∀ x ∈ r :: rs, x.Spelled) :
    Gives .name (' ' :: ((referencesText (r :: rs)).toList ++ ';' :: rest)) .name r.name.text
      (r.indexText.toList ++ (moreReferences rs ++ ';' :: rest)) := by
  rw [toList_referencesText, append_assoc]
  exact (gives_reference (hspelled r mem_cons_self) (ends_moreReferences rs)).space isSpace_blank

theorem reads_call {gate name : Word} (hgate : gate.text = name.text) {ps : Option Params}
    (hps : ∀ p ∈ ps, ∀ e ∈ p.exprs, e.Spelled) (hoperands : ReferencesSpelled operands) :
    Reads (call gate) (((ps.map Params.text).getD "").toList ++
        ' ' :: ((referencesText operands).toList ++ ';' :: rest)) rest
      fun op => op.unplaced = (Operation.call name ps operands).unplaced := by
  obtain ⟨hne, hspelled⟩ := hoperands
  obtain ⟨r, rs, rfl⟩ := List.exists_cons_of_ne_nil hne
  have hname : gate.unplaced = name.unplaced := by rw [Word.unplaced, Word.unplaced, hgate]
  cases ps with
  | none =>
    refine (reads_next (gives_references hspelled)).bind ?_
    rintro token ⟨hterminal, htext⟩
    rw [hterminal]
    refine (reads_rounds _).bind fun n hn => ?_
    refine (reads_references_rounds (w := ⟨token.text, token.position⟩) hspelled htext hn).bind fun rs' hrs' => ?_
    refine Reads.pure ?_
    rw [Operation.unplaced, Operation.unplaced, hname, hrs']
  | some ps =>
    have htext : ((Option.map Params.text (some ps)).getD "").toList ++
        ' ' :: ((referencesText (r :: rs)).toList ++ ';' :: rest) =
        '(' :: ((Text.join "," (ps.exprs.map Expr.text)).toList ++
          ')' :: ' ' :: ((referencesText (r :: rs)).toList ++ ';' :: rest)) := by
      simp [Params.text]
    rw [htext]
    refine Reads.bind (reads_next (gives_mark rfl)) ?_
    rintro token ⟨hterminal, -⟩
    rw [hterminal]
    refine (reads_params (hps ps rfl) token).bind fun ps' hps' => ?_
    refine (reads_referenceList hspelled (gives_references hspelled)).bind fun rs' hrs' => ?_
    refine Reads.pure ?_
    rw [Operation.unplaced, Operation.unplaced, hname, hrs', Option.map_some, Option.map_some, hps']
    rfl

/-- What a token that begins an operation can be. -/
def BeginsOperation (terminal : Terminal) : Prop :=
  terminal = .keyword .unitary ∨ terminal = .keyword .controlledNot ∨ terminal = .name

/-- Points where operations may begin: the primitive gates are keywords there. -/
structure AllowsOperations (context : Context) : Prop where
  names : context.names
  unitary : Keyword.ofText? context.keywords Keyword.unitary.text = some .unitary
  controlledNot : Keyword.ofText? context.keywords Keyword.controlledNot.text = some .controlledNot

/-- An operation begins with its own token, which tells how to go on. -/
theorem reads_operation (hcontext : AllowsOperations context) {op : Operation} (hop : op.Spelled context.keywords)
    (rest : List Char) : ∃ terminal spelling after, BeginsOperation terminal ∧
      Gives context (op.text.toList ++ ';' :: rest) terminal spelling after ∧
      ∀ token : Token, token.terminal = terminal → token.text = spelling →
        ∃ r, operation? token = some r ∧ Reads r after rest fun op' => op'.unplaced = op.unplaced := by
  cases op with
  | unitary p theta phi lam target =>
    obtain ⟨htheta, hphi, hlam, htarget⟩ := hop
    have htext : (Operation.unitary p theta phi lam target).text.toList ++ ';' :: rest =
        Keyword.unitary.text.toList ++ ('(' :: (theta.text.toList ++ ',' :: (phi.text.toList ++
          ',' :: (lam.text.toList ++ ')' :: ' ' :: (target.text.toList ++ ';' :: rest))))) := by
      simp [Operation.text, Text.join, Keyword.text]
    rw [htext]
    refine ⟨_, _, _, Or.inl rfl, gives_keyword hcontext.unitary
      (ends_cons rfl) hcontext.names, fun token hterminal _ => ?_⟩
    refine ⟨unitary token.position, by rw [operation?, hterminal], ?_⟩
    exact reads_unitary htheta hphi hlam htarget token.position
  | controlledNot p control target =>
    obtain ⟨hcontrol, htarget⟩ := hop
    have htext : (Operation.controlledNot p control target).text.toList ++ ';' :: rest =
        Keyword.controlledNot.text.toList ++
          (' ' :: (control.text.toList ++ ',' :: (target.text.toList ++ ';' :: rest))) := by
      simp [Operation.text, referencesText, Text.join, Keyword.text]
    rw [htext]
    refine ⟨_, _, _, Or.inr (Or.inl rfl), gives_keyword hcontext.controlledNot
      (ends_cons rfl) hcontext.names, fun token hterminal _ => ?_⟩
    refine ⟨controlledNot token.position, by rw [operation?, hterminal], ?_⟩
    exact reads_controlledNot hcontrol htarget token.position
  | call name ps operands =>
    obtain ⟨⟨hword, hfree⟩, hps, hoperands⟩ := hop
    have htext : (Operation.call name ps operands).text.toList ++ ';' :: rest =
        name.text.toList ++ (((ps.map Params.text).getD "").toList ++
          ' ' :: ((referencesText operands).toList ++ ';' :: rest)) := by
      simp [Operation.text]
    have hends : Ends (((ps.map Params.text).getD "").toList ++
        ' ' :: ((referencesText operands).toList ++ ';' :: rest)) := by
      cases ps with
      | none => exact ends_cons rfl
      | some ps =>
        rw [Option.map_some, Option.getD_some, Params.text, String.toList_append, String.toList_append]
        exact ends_cons rfl
    rw [htext]
    refine ⟨_, _, _, Or.inr (Or.inr rfl), Cursor.gives_name hword hfree hends hcontext.names,
      fun token hterminal hspelling => ?_⟩
    refine ⟨call ⟨token.text, token.position⟩, by rw [operation?, hterminal], ?_⟩
    exact reads_call hspelling hps hoperands

/-! ## Statements -/

theorem reads_measure (hqubit : qubit.Spelled) (hclbit : clbit.Spelled) (p : Position) : Reads (measure p)
      (' ' :: (qubit.text.toList ++ ' ' :: '-' :: '>' :: ' ' :: (clbit.text.toList ++ ';' :: rest))) rest
      fun a => a.unplaced = (Action.measure p qubit clbit).unplaced := by
  refine (reads_referenceBefore hqubit (by decide) ((gives_reference hqubit (ends_cons rfl)).space isSpace_blank)
    ((Cursor.gives_arrow rfl).space isSpace_blank)).bind fun qubit' hqubit' => ?_
  refine (reads_referenceBefore hclbit (by decide)
    ((gives_reference hclbit ends_semicolon).space isSpace_blank) gives_semicolon).bind
    fun clbit' hclbit' => ?_
  refine Reads.pure ?_
  rw [Action.unplaced, Action.unplaced, hqubit', hclbit']

theorem toList_measure {p : Position} :
    (Action.measure p qubit clbit).text.toList ++ ';' :: rest = Keyword.measure.text.toList ++
      (' ' :: (qubit.text.toList ++ ' ' :: '-' :: '>' :: ' ' :: (clbit.text.toList ++ ';' :: rest))) := by
  simp [Action.text, Keyword.text]

theorem allowsOperations_guarded : AllowsOperations .guarded := ⟨rfl, rfl, rfl⟩

theorem reads_guarded {register value : Word} (hregister : isWord register.text)
    (hvalue : Lexeme.isInteger value.text) {a : Action}
    (ha : a.Spelled Context.guarded.keywords) (p : Position) :
    Reads (guarded p) ('(' :: (register.text.toList ++ '=' :: '=' :: (value.text.toList ++
        ')' :: ' ' :: (a.text.toList ++ ';' :: rest)))) rest
      fun s => s.unplaced = (Statement.guarded p register value a).unplaced := by
  refine Reads.bind (reads_symbol (gives_mark rfl)) fun _ _ => ?_
  refine (reads_name (gives_word hregister (ends_cons rfl))).bind fun register' hregister' => ?_
  refine (reads_symbol Cursor.gives_equals).bind fun _ _ => ?_
  refine (reads_integer (gives_integer hvalue (ends_cons rfl) rfl)).bind fun value' hvalue' => ?_
  refine Reads.bind (reads_symbol (gives_mark rfl)) fun _ _ => ?_
  have hwords : register'.unplaced = register.unplaced ∧ value'.unplaced = value.unplaced := by
    rw [Word.unplaced, Word.unplaced, Word.unplaced, Word.unplaced, hregister', hvalue']
    exact ⟨rfl, rfl⟩
  cases a with
  | measure q qubit clbit =>
    rw [toList_measure]
    refine (reads_next ((gives_keyword rfl (ends_cons rfl) rfl).space isSpace_blank)).bind ?_
    rintro token ⟨hterminal, -⟩
    rw [hterminal]
    refine (reads_measure ha.1 ha.2 _).bind fun a' ha' => ?_
    refine Reads.pure ?_
    rw [Statement.unplaced, Statement.unplaced, hwords.1, hwords.2, ha']
    rfl
  | operation op =>
    obtain ⟨terminal, spelling, after, hbegins, hgives, hreader⟩ :=
      reads_operation allowsOperations_guarded ha rest
    refine (reads_next (hgives.space isSpace_blank)).bind ?_
    rintro token ⟨hterminal, hspelling⟩
    obtain ⟨r, hr, hreads⟩ := hreader token hterminal hspelling
    have hplaced : ∀ op' : Operation, op'.unplaced = op.unplaced →
        (Statement.guarded p register' value' (.operation op')).unplaced =
          (Statement.guarded p register value (.operation op)).unplaced := by
      intro op' hop'
      rw [Statement.unplaced, Statement.unplaced, hwords.1, hwords.2, Action.unplaced, Action.unplaced, hop']
    rw [hr, hterminal]
    rcases hbegins with rfl | rfl | rfl <;> exact hreads.bind fun op' hop' => Reads.pure (hplaced op' hop')

/-! ## Declarations -/

/-- Words behind the first one, each with a comma in front. -/
def moreWords (ws : List Word) : List Char := ws.flatMap fun w => ',' :: w.text.toList

theorem ends_moreWords (h : Ends follow) : Ends (moreWords ws ++ follow) := by
  cases ws with
  | nil => exact h
  | cons w ws => exact ends_cons rfl

theorem toList_words (w : Word) (ws : List Word) :
    (Text.join "," ((w :: ws).map Word.text)).toList = w.text.toList ++ moreWords ws := by
  rw [map_cons, toList_join, List.flatMap_map]
  rfl

theorem unplaced_eq_of_text_eq {v : Word} (h : v.text = w.text) : v.unplaced = w.unplaced := by
  rw [Word.unplaced, Word.unplaced, h]

section

variable (hws : ∀ w ∈ ws, isWord w.text)

include hws

theorem reads_names (hu : u.text = w.text) (hending : ending ≠ .comma) (hends : Ends follow)
    (hfollow : Gives .any follow (.symbol ending) spelling rest) (hn : ws.length < n) :
    Reads (names n ending u) (moreWords ws ++ follow) rest fun x =>
      x.1.map Word.unplaced = (w :: ws).map Word.unplaced := by
  induction ws generalizing u w n with
  | nil =>
    obtain ⟨n, rfl⟩ : ∃ m, n = m + 1 := ⟨n - 1, by omega⟩
    refine (reads_next hfollow).bind ?_
    rintro token ⟨hterminal, -⟩
    rw [if_pos hterminal]
    refine Reads.pure ?_
    rw [map_singleton, map_singleton, unplaced_eq_of_text_eq hu]
  | cons v ws ih =>
    obtain ⟨n, rfl⟩ : ∃ m, n = m + 1 := ⟨n - 1, by omega⟩
    have htext : moreWords (v :: ws) ++ follow = ',' :: (v.text.toList ++ (moreWords ws ++ follow)) := by
      rw [moreWords, flatMap_cons, append_assoc]
      rfl
    rw [htext]
    refine Reads.bind (reads_next (gives_mark rfl)) ?_
    rintro token ⟨hterminal, -⟩
    rw [hterminal, if_neg (fun h => hending (Terminal.symbol.inj h).symm), if_pos rfl]
    refine (reads_name (gives_word (hws v mem_cons_self) (ends_moreWords hends))).bind fun v' hv' => ?_
    refine (ih (fun y hy => hws y (mem_cons_of_mem _ hy)) hv' (by rw [length_cons] at hn; omega)).bind ?_
    rintro ⟨ws', token'⟩ hws'
    refine Reads.pure ?_
    rw [map_cons, hws', unplaced_eq_of_text_eq hu, ← map_cons]

theorem reads_names_rounds (hu : u.text = w.text) (hending : ending ≠ .comma) (hends : Ends follow)
    (hfollow : Gives .any follow (.symbol ending) spelling rest) (hn : n = (moreWords ws ++ follow).length + 1) :
    Reads (names n ending u) (moreWords ws ++ follow) rest fun x =>
      x.1.map Word.unplaced = (w :: ws).map Word.unplaced := by
  refine reads_names hws hu hending hends hfollow ?_
  have hlength : ws.length ≤ (moreWords ws).length := length_le_flatMap _ ws
  rw [hn, length_append]
  omega

theorem reads_formals (opening : Token) :
    Reads (formals opening) ((Text.join "," (ws.map Word.text)).toList ++ ')' :: rest) rest fun f =>
      f.unplaced = ⟨.origin, ws.map Word.unplaced⟩ := by
  have hends : Ends (')' :: rest) := ends_cons rfl
  cases ws with
  | nil =>
    refine Reads.bind (reads_next (gives_mark rfl)) ?_
    rintro token ⟨hterminal, -⟩
    rw [hterminal]
    exact Reads.pure rfl
  | cons w ws =>
    rw [toList_words, append_assoc]
    refine (reads_next (gives_word (hws w mem_cons_self) (ends_moreWords hends))).bind ?_
    rintro token ⟨hterminal, htext⟩
    rw [hterminal]
    refine (reads_rounds _).bind fun n hn => ?_
    refine Reads.bind (reads_names_rounds (u := ⟨token.text, token.position⟩)
      (fun y hy => hws y (mem_cons_of_mem _ hy)) htext (by decide) hends
      (gives_mark rfl) hn) ?_
    rintro ⟨ws', token'⟩ hws'
    refine Reads.pure ?_
    rw [Formals.unplaced, hws']

end

theorem reads_register {name size : Word} (hname : isWord name.text) (hsize : Lexeme.isInteger size.text) :
    Reads register (' ' :: (name.text.toList ++ '[' :: (size.text.toList ++ ']' :: ';' :: rest))) rest
      fun x => x.1.unplaced = name.unplaced ∧ x.2.unplaced = size.unplaced := by
  refine (reads_name ((gives_word hname (ends_cons rfl)).space isSpace_blank)).bind fun name' hname' => ?_
  refine Reads.bind (reads_symbol (gives_mark rfl)) fun _ _ => ?_
  refine (reads_integer (gives_integer hsize (ends_cons rfl) rfl)).bind fun size' hsize' => ?_
  refine Reads.bind (reads_symbol (gives_mark rfl)) fun _ _ => ?_
  refine (reads_symbol gives_semicolon).bind fun _ _ => ?_
  exact Reads.pure ⟨unplaced_eq_of_text_eq hname', unplaced_eq_of_text_eq hsize'⟩

theorem toList_barrier (operands : List Reference) (rest : List Char) :
    ("barrier " ++ referencesText operands).toList ++ ';' :: rest =
      Keyword.barrier.text.toList ++ ' ' :: ((referencesText operands).toList ++ ';' :: rest) := by
  simp [Keyword.text]

theorem reads_operands (h : ReferencesSpelled operands) :
    Reads referenceList (' ' :: ((referencesText operands).toList ++ ';' :: rest)) rest fun rs' =>
      rs'.map Reference.unplaced = operands.map Reference.unplaced := by
  obtain ⟨hne, hspelled⟩ := h
  obtain ⟨r, rs, rfl⟩ := List.exists_cons_of_ne_nil hne
  exact reads_referenceList hspelled (gives_references hspelled)

theorem isSpace_newline : isSpace '\n' := rfl

/-- Points in the body of a gate. -/
structure AllowsBody (context : Context) : Prop extends AllowsOperations context where
  barrier : Keyword.ofText? context.keywords Keyword.barrier.text = some .barrier

theorem allowsBody_body : AllowsBody .body := ⟨⟨rfl, rfl, rfl⟩, rfl⟩

theorem allowsBody_statement : AllowsBody .statement := ⟨⟨rfl, rfl, rfl⟩, rfl⟩

theorem toList_bodyText_cons (s : BodyStatement) (body : List BodyStatement) (rest : List Char) :
    (bodyText (s :: body)).toList ++ rest =
      '\n' :: ' ' :: ' ' :: (s.text.toList ++ ';' :: ((bodyText body).toList ++ rest)) := by
  simp [bodyText]

theorem reads_body (hcontext : AllowsBody context) (hbody : BodySpelled context.keywords body) (hn : body.length < n) :
    Reads (Reader.body n context) ((bodyText body).toList ++ '\n' :: '\x7d' :: rest) rest fun body' =>
      body'.map BodyStatement.unplaced = body.map BodyStatement.unplaced := by
  induction body generalizing context n with
  | nil =>
    obtain ⟨n, rfl⟩ : ∃ m, n = m + 1 := ⟨n - 1, by omega⟩
    refine Reads.bind (reads_next ((gives_mark rfl).space isSpace_newline)) ?_
    rintro token ⟨hterminal, -⟩
    rw [hterminal]
    exact Reads.pure rfl
  | cons s body ih =>
    obtain ⟨n, rfl⟩ : ∃ m, n = m + 1 := ⟨n - 1, by omega⟩
    have hn' : body.length < n := by rw [length_cons] at hn; omega
    rw [toList_bodyText_cons]
    cases s with
    | operation op =>
      obtain ⟨terminal, spelling, after, hbegins, hgives, hreader⟩ :=
        reads_operation hcontext.toAllowsOperations hbody.1 ((bodyText body).toList ++ '\n' :: '\x7d' :: rest)
      refine (reads_next (((hgives.space isSpace_blank).space isSpace_blank).space isSpace_newline)).bind ?_
      rintro token ⟨hterminal, hspelling⟩
      obtain ⟨r, hr, hreads⟩ := hreader token hterminal hspelling
      have hrest : ∀ op' : Operation, op'.unplaced = op.unplaced →
          Reads (do pure (.operation op' :: (← Reader.body n .statement)))
            ((bodyText body).toList ++ '\n' :: '\x7d' :: rest) rest fun body' =>
              body'.map BodyStatement.unplaced = (BodyStatement.operation op :: body).map BodyStatement.unplaced := by
        intro op' hop'
        refine (ih allowsBody_statement hbody.2 hn').bind fun body' hbody' => ?_
        refine Reads.pure ?_
        rw [map_cons, hbody', BodyStatement.unplaced, hop', map_cons, BodyStatement.unplaced]
      rw [hr, hterminal]
      rcases hbegins with rfl | rfl | rfl <;> exact hreads.bind fun op' hop' => hrest op' hop'
    | barrier p operands =>
      rw [BodyStatement.text, toList_barrier]
      refine (reads_next ((((gives_keyword hcontext.barrier (ends_cons rfl) hcontext.names).space isSpace_blank).space
        isSpace_blank).space isSpace_newline)).bind ?_
      rintro token ⟨hterminal, -⟩
      rw [hterminal]
      refine (reads_operands hbody.1).bind fun rs' hrs' => ?_
      refine (ih allowsBody_statement hbody.2 hn').bind fun body' hbody' => ?_
      refine Reads.pure ?_
      rw [map_cons, hbody', BodyStatement.unplaced, hrs', map_cons, BodyStatement.unplaced]

/-- There are at least as many characters in the text of a body as there are statements. -/
theorem length_le_bodyText (body : List BodyStatement) : body.length ≤ (bodyText body).toList.length := by
  induction body with
  | nil => exact Nat.le_refl _
  | cons s body ih =>
    have htext := congrArg List.length (toList_bodyText_cons s body [])
    simp only [List.append_nil, length_cons, length_append] at htext ⊢
    omega

/-- What follows the name of a gate, up to the end of its declaration. -/
def gateText (params : Option Formals) (args : List Word) (body : List BodyStatement) : List Char :=
  ((params.map Formals.text).getD "").toList ++ ' ' :: ((Text.join "," (args.map Word.text)).toList ++
    '\n' :: '\x7b' :: ((bodyText body).toList ++ ['\n', '\x7d']))

/-- The arguments and the body of a gate, behind the first argument. -/
theorem reads_gateRest (hargs : ∀ w ∈ args, isWord w.text)
    (hu : u.text = w.text) (hbody : BodySpelled Context.body.keywords body)
    {p : Position} {name name' : Word} (hname : name'.text = name.text) {params params' : Option Formals}
    (hparams : params'.map Formals.unplaced = params.map Formals.unplaced) :
    Reads (do
        let (args', opening) ← names (← rounds) .leftBrace u
        let statements ← Reader.body (← rounds) .body
        pure (Declaration.gate p name' params' args' opening.position statements))
      (moreWords args ++ '\n' :: '\x7b' :: ((bodyText body).toList ++ '\n' :: '\x7d' :: rest)) rest
      fun d => d.unplaced = (Declaration.gate p name params (w :: args) p body).unplaced := by
  refine (reads_rounds _).bind fun n hn => ?_
  refine Reads.bind (reads_names_rounds hargs hu (by decide) (ends_cons rfl)
    ((gives_mark rfl).space isSpace_newline) hn) ?_
  rintro ⟨args', opening⟩ hargs'
  refine (reads_rounds _).bind fun n hn => ?_
  refine (reads_body allowsBody_body hbody ?_).bind fun body' hbody' => ?_
  · have hlength := length_le_bodyText body
    rw [hn, length_append]
    omega
  refine Reads.pure ?_
  rw [Declaration.unplaced, Declaration.unplaced, unplaced_eq_of_text_eq hname, hparams, hargs', hbody']

theorem reads_gate {name : Word} (hname : isWord name.text) {params : Option Formals}
    (hparams : ∀ ps ∈ params, ∀ w ∈ ps.names, isWord w.text)
    (hargs : args ≠ [] ∧ ∀ w ∈ args, isWord w.text)
    (hbody : BodySpelled Context.body.keywords body) (p : Position) :
    Reads (gate p) (' ' :: (name.text.toList ++ (gateText params args body ++ rest))) rest
      fun d => d.unplaced = (Declaration.gate p name params args p body).unplaced := by
  obtain ⟨w, args, rfl⟩ := List.exists_cons_of_ne_nil hargs.1
  have hw := hargs.2 w mem_cons_self
  have hargs' : ∀ v ∈ args, isWord v.text := fun v hv => hargs.2 v (mem_cons_of_mem _ hv)
  have hbrace : Ends (moreWords args ++ '\n' :: '\x7b' :: ((bodyText body).toList ++ '\n' :: '\x7d' :: rest)) :=
    ends_moreWords (ends_cons rfl)
  cases params with
  | none =>
    have htext : gateText none (w :: args) body ++ rest = ' ' :: (w.text.toList ++ (moreWords args ++
        '\n' :: '\x7b' :: ((bodyText body).toList ++ '\n' :: '\x7d' :: rest))) := by
      rw [gateText, toList_words]
      simp
    rw [htext]
    refine (reads_name ((gives_word hname (ends_cons rfl)).space isSpace_blank)).bind fun name' hname' => ?_
    refine (reads_next ((gives_word hw hbrace).space isSpace_blank)).bind ?_
    rintro token ⟨hterminal, hspelling⟩
    rw [hterminal]
    exact reads_gateRest hargs' (u := ⟨token.text, token.position⟩) hspelling hbody hname' rfl
  | some ps =>
    have htext : gateText (some ps) (w :: args) body ++ rest =
        '(' :: ((Text.join "," (ps.names.map Word.text)).toList ++ ')' :: ' ' :: (w.text.toList ++
          (moreWords args ++ '\n' :: '\x7b' :: ((bodyText body).toList ++ '\n' :: '\x7d' :: rest)))) := by
      rw [gateText, toList_words]
      simp [Formals.text]
    rw [htext]
    refine (reads_name ((gives_word hname (ends_cons rfl)).space isSpace_blank)).bind fun name' hname' => ?_
    refine Reads.bind (reads_next (gives_mark rfl)) ?_
    rintro token ⟨hterminal, -⟩
    rw [hterminal]
    refine (reads_formals (hparams ps rfl) token).bind fun ps' hps' => ?_
    refine (reads_name ((gives_word hw hbrace).space isSpace_blank)).bind fun w' hw' => ?_
    have hparams' : (some ps').map Formals.unplaced = (some ps).map Formals.unplaced :=
      congrArg some hps'
    exact reads_gateRest hargs' hw' hbody hname' hparams'

/-! ## Programs -/

/-- An item begins with its own token, which tells how to go on. -/
def ReadsItem (i : Item) (rest : List Char) : Prop :=
  ∃ terminal spelling after, terminal ≠ .finish ∧ Gives .statement (i.text.toList ++ rest) terminal spelling after ∧
    ∀ token : Token, token.terminal = terminal → token.text = spelling →
      Reads (item token) after rest fun i' => i'.unplaced = i.unplaced

theorem readsItem_keyword {i : Item} {k : Keyword} {a : List Char} (htext : i.text.toList ++ rest = k.text.toList ++ a)
    (hk : Keyword.ofText? Keyword.statements k.text = some k) (hends : Ends a)
    (h : ∀ token : Token, token.terminal = .keyword k →
      Reads (item token) a rest fun i' => i'.unplaced = i.unplaced) : ReadsItem i rest := by
  refine ⟨.keyword k, k.text, a, by simp, ?_, fun token hterminal _ => h token hterminal⟩
  rw [htext]
  exact gives_keyword hk hends rfl

theorem readsItem_includes {path : Word} {s : String} (hs : Lexeme.isQuotable s)
    (hpath : path.text = "\"" ++ s ++ "\"") (p : Position) : ReadsItem (.includes p path) rest := by
  have hchars : path.text = String.ofList ('"' :: s.toList ++ ['"']) := by
    apply String.toList_injective
    rw [hpath, String.toList_ofList]
    simp
  refine readsItem_keyword (k := .includes) (a := ' ' :: ('"' :: s.toList ++ '"' :: ';' :: rest))
    (by simp [Item.text, Keyword.text, hpath]) rfl (ends_cons rfl)
    fun token hterminal => ?_
  rw [item, hterminal]
  refine (reads_expect ((Cursor.gives_string hs).space isSpace_blank)).bind fun path' hpath' => ?_
  refine (reads_symbol gives_semicolon).bind fun _ _ => ?_
  refine Reads.pure ?_
  rw [Item.unplaced, Item.unplaced, Word.unplaced, Word.unplaced, hchars, hpath']

theorem readsItem_declaration {d : Declaration} (hd : d.Spelled) : ReadsItem (.declaration d) rest := by
  cases d with
  | qreg p name size =>
    refine readsItem_keyword (k := .qreg) (a := ' ' :: (name.text.toList ++ '[' ::
      (size.text.toList ++ ']' :: ';' :: rest))) (by simp [Item.text, Declaration.text, Keyword.text]) rfl
      (ends_cons rfl) fun token hterminal => ?_
    rw [item, hterminal]
    refine (reads_register hd.1 hd.2.1).bind ?_
    rintro ⟨name', size'⟩ ⟨hname', hsize'⟩
    refine Reads.pure ?_
    rw [Item.unplaced, Item.unplaced, Declaration.unplaced, Declaration.unplaced, hname', hsize']
  | creg p name size =>
    refine readsItem_keyword (k := .creg) (a := ' ' :: (name.text.toList ++ '[' ::
      (size.text.toList ++ ']' :: ';' :: rest))) (by simp [Item.text, Declaration.text, Keyword.text]) rfl
      (ends_cons rfl) fun token hterminal => ?_
    rw [item, hterminal]
    refine (reads_register hd.1 hd.2.1).bind ?_
    rintro ⟨name', size'⟩ ⟨hname', hsize'⟩
    refine Reads.pure ?_
    rw [Item.unplaced, Item.unplaced, Declaration.unplaced, Declaration.unplaced, hname', hsize']
  | gate p name params args bodyPosition body =>
    obtain ⟨hname, hparams, hargs, hbody⟩ := hd
    refine readsItem_keyword (k := .gate) (a := ' ' :: (name.text.toList ++ (gateText params args body ++ rest)))
      (by simp [Item.text, Declaration.text, Keyword.text, gateText]) rfl
      (ends_cons rfl) fun token hterminal => ?_
    rw [item, hterminal]
    refine (reads_gate hname hparams hargs hbody _).bind fun d' hd' => ?_
    refine Reads.pure ?_
    rw [Item.unplaced, Item.unplaced, hd', Declaration.unplaced, Declaration.unplaced]

theorem readsItem_action {a : Action} (ha : a.Spelled Keyword.statements) :
    ReadsItem (.statement (.action a)) rest := by
  cases a with
  | measure p qubit clbit =>
    refine readsItem_keyword (k := .measure) (a := ' ' :: (qubit.text.toList ++ ' ' :: '-' :: '>' ::
      ' ' :: (clbit.text.toList ++ ';' :: rest)))
      (by simp [Item.text, Statement.text, Action.text, Keyword.text]) rfl
      (ends_cons rfl) fun token hterminal => ?_
    rw [item, hterminal]
    refine (reads_measure ha.1 ha.2 _).bind fun a' ha' => ?_
    refine Reads.pure ?_
    rw [Item.unplaced, Item.unplaced, Statement.unplaced, Statement.unplaced, ha']
    rfl
  | operation op =>
    obtain ⟨terminal, spelling, after, hbegins, hgives, hreader⟩ :=
      reads_operation allowsBody_statement.toAllowsOperations ha rest
    have htext : (Item.statement (.action (.operation op))).text.toList ++ rest = op.text.toList ++ ';' :: rest := by
      simp [Item.text, Statement.text, Action.text]
    refine ⟨terminal, spelling, after, ?_, htext ▸ hgives, fun token hterminal hspelling => ?_⟩
    · rcases hbegins with rfl | rfl | rfl <;> simp
    · obtain ⟨r, hr, hreads⟩ := hreader token hterminal hspelling
      have hplaced : ∀ op' : Operation, op'.unplaced = op.unplaced →
          (Item.statement (.action (.operation op'))).unplaced =
            (Item.statement (.action (.operation op))).unplaced := by
        intro op' hop'
        rw [Item.unplaced, Item.unplaced, Statement.unplaced, Statement.unplaced, Action.unplaced,
          Action.unplaced, hop']
      rw [item, hr, hterminal]
      rcases hbegins with rfl | rfl | rfl <;> exact hreads.bind fun op' hop' => Reads.pure (hplaced op' hop')

theorem readsItem_statement {s : Statement} (hs : s.Spelled) : ReadsItem (.statement s) rest := by
  cases s with
  | action a => exact readsItem_action hs
  | barrier p operands =>
    refine readsItem_keyword (k := .barrier) (a := ' ' :: ((referencesText operands).toList ++ ';' :: rest))
      (by simp [Item.text, Statement.text, Keyword.text]) rfl
      (ends_cons rfl) fun token hterminal => ?_
    rw [item, hterminal]
    refine (reads_operands hs).bind fun rs' hrs' => ?_
    refine Reads.pure ?_
    rw [Item.unplaced, Item.unplaced, Statement.unplaced, Statement.unplaced, hrs']
  | guarded p register value a =>
    refine readsItem_keyword (k := .guard) (a := '(' :: (register.text.toList ++ '=' :: '=' ::
      (value.text.toList ++ ')' :: ' ' :: (a.text.toList ++ ';' :: rest))))
      (by simp [Item.text, Statement.text, Keyword.text]) rfl
      (ends_cons rfl) fun token hterminal => ?_
    rw [item, hterminal]
    refine (reads_guarded hs.1 hs.2.1 hs.2.2.1 _).bind fun s' hs' => ?_
    refine Reads.pure ?_
    rw [Item.unplaced, Item.unplaced, hs']
    rfl

theorem readsItem {i : Item} (hi : i.Spelled) (rest : List Char) : ReadsItem i rest := by
  cases i with
  | includes p path =>
    obtain ⟨s, hs, hpath⟩ := hi
    exact readsItem_includes hs hpath p
  | declaration d => exact readsItem_declaration hi
  | statement s => exact readsItem_statement hi

theorem toList_itemsText_cons (i : Item) (is : List Item) (rest : List Char) : (itemsText (i :: is)).toList ++ rest =
      '\n' :: (i.text.toList ++ ((itemsText is).toList ++ rest)) := by
  simp [itemsText]

theorem reads_items {is : List Item} (his : ∀ i ∈ is, i.Spelled) (hn : is.length < n) :
    Reads (items n) ((itemsText is).toList ++ ['\n']) [] fun is' => is'.map Item.unplaced = is.map Item.unplaced := by
  induction is generalizing n with
  | nil =>
    obtain ⟨n, rfl⟩ : ∃ m, n = m + 1 := ⟨n - 1, by omega⟩
    refine (reads_next (Cursor.gives_finish.space isSpace_newline)).bind ?_
    rintro token ⟨hterminal, -⟩
    rw [if_pos hterminal]
    exact Reads.pure rfl
  | cons i is ih =>
    obtain ⟨n, rfl⟩ : ∃ m, n = m + 1 := ⟨n - 1, by omega⟩
    obtain ⟨terminal, spelling, after, hfinish, hgives, hreads⟩ :=
      readsItem (his i mem_cons_self) ((itemsText is).toList ++ ['\n'])
    rw [toList_itemsText_cons]
    refine (reads_next (hgives.space isSpace_newline)).bind ?_
    rintro token ⟨hterminal, hspelling⟩
    rw [if_neg (by rw [hterminal]; exact hfinish)]
    refine (hreads token hterminal hspelling).bind fun i' hi' => ?_
    refine (ih (fun j hj => his j (mem_cons_of_mem _ hj)) (by rw [length_cons] at hn; omega)).bind fun is' his' => ?_
    refine Reads.pure ?_
    rw [map_cons, hi', his', ← map_cons]

/-- There are at least as many characters in the text of some items as there are items. -/
theorem length_le_itemsText (is : List Item) : is.length ≤ (itemsText is).toList.length := by
  induction is with
  | nil => exact Nat.le_refl _
  | cons i is ih =>
    have htext := congrArg List.length (toList_itemsText_cons i is [])
    simp only [List.append_nil, length_cons, length_append] at htext ⊢
    omega

theorem reads_program {s : Source} (hs : s.Spelled) :
    Reads program s.text.toList [] fun s' => s'.unplaced = s.unplaced := by
  obtain ⟨hversion, hitems⟩ := hs
  have htext : s.text.toList = Keyword.openqasm.text.toList ++ (' ' :: (s.version.text.toList ++
      ';' :: ((itemsText s.items).toList ++ ['\n']))) := by
    simp [Source.text, Keyword.text]
  rw [htext]
  refine (reads_expect (Cursor.gives_start _)).bind fun opening _ => ?_
  refine (reads_expect ((Cursor.gives_number hversion ends_semicolon rfl).space
    isSpace_blank)).bind fun version hversion' => ?_
  refine (reads_symbol gives_semicolon).bind fun _ _ => ?_
  refine (reads_rounds _).bind fun n hn => ?_
  refine (reads_items hitems ?_).bind fun items' hitems' => ?_
  · have hlength := length_le_itemsText s.items
    rw [hn, length_append]
    omega
  refine Reads.pure ?_
  rw [Source.unplaced, Source.unplaced, hitems', Word.unplaced, Word.unplaced, hversion']

end Reader

/-- The text of a spelled program is read as that program, up to places. -/
theorem parse_text {s : Source} (hs : s.Spelled) : ∃ s', parse s.text = .ok s' ∧ s'.unplaced = s.unplaced := by
  obtain ⟨s', c', hread, -, hunplaced⟩ := Reader.reads_program hs (Cursor.ofText s.text) rfl
  refine ⟨s', ?_, hunplaced⟩
  show (Reader.program (Cursor.ofText s.text)).map (·.1) = .ok s'
  rw [hread]
  rfl

end QasmCircuit.Source
