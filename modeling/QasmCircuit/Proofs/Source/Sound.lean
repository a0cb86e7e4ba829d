import QasmCircuit.Source.Reader
import QasmCircuit.Proofs.Outcome
import QasmCircuit.Proofs.Source.Spelling

/-!
# What is read is spelled

Every word, integer and number that the reader puts into a program is one, and no name is a keyword of the
point where it was read. One lemma for each rule of the grammar, from the tokens up.

A rule asks for a token in a context, which says what keywords can stand at this point. So it is the token that
is known not to be one of them (`yields_next`), and every rule hands this on to what it builds. Expressions are
read by a machine; its frames are spelled after each step.

> `Source.spelled_of_parse`: a program that was read from a text is spelled.
-/

namespace QasmCircuit

open Outcome Lexeme

variable {context : Context} {token : Token} {m : QasmCircuit.Expr.Machine}

namespace Cursor

theorem isValid_position (c : Cursor) : c.position.isValid := by
  have hpositive : ∀ n : Nat, 1 ≤ (n : Int) + 1 := by omega
  rw [Position.isValid, Bool.and_eq_true]
  exact ⟨decide_eq_true (hpositive c.line), decide_eq_true (hpositive c.col)⟩

theorem isValid_of_next {c c' : Cursor} (h : c.next context = .ok (token, c')) :
    token.terminal = .finish ∨ token.position.isValid := by
  unfold next at h
  dsimp only at h
  split at h
  · cases h
    exact .inl rfl
  · split at h
    · cases h
    · cases h
      exact .inr (isValid_position _)

end Cursor

namespace Source.Reader

variable {α β : Type} {P Q : α → Prop}

/-- Whatever the reader gives has a property. -/
def Yields (r : Reader α) (P : α → Prop) : Prop := ∀ c a c', r c = .ok (a, c') → P a

theorem Yields.bind {r : Reader α} {f : α → Reader β} {Q : β → Prop} (h : Yields r P)
    (h' : ∀ a, P a → Yields (f a) Q) : Yields (r >>= f) Q := by
  intro c b c' hrun
  have hbind : (r >>= f) c = r c >>= fun x => f x.1 x.2 := rfl
  obtain ⟨x, hx, hfx⟩ := bind_eq_ok.mp (hbind.symm.trans hrun)
  exact h' x.1 (h c x.1 x.2 hx) x.2 b c' hfx

theorem Yields.pure {a : α} (h : P a) : Yields (Pure.pure a) P := by
  intro c b c' hrun
  obtain ⟨rfl, rfl⟩ := Prod.mk.inj (Except.ok.inj hrun)
  exact h

theorem Yields.and {r : Reader α} (h : Yields r P) (h' : Yields r Q) : Yields r fun a => P a ∧ Q a :=
  fun c a c' hrun => ⟨h c a c' hrun, h' c a c' hrun⟩

/-- Nothing is asked of the first result. -/
theorem Yields.after {r : Reader α} {f : α → Reader β} {Q : β → Prop} (h : ∀ a, Yields (f a) Q) : Yields (r >>= f) Q :=
  Yields.bind (fun _ _ _ _ => trivial : Yields r fun _ => True) fun a _ => h a

theorem yields_unexpected : Yields (unexpected token) P := by
  intro c a c' hrun
  cases (show Except.error _ = Except.ok _ from hrun)

theorem yields_exhausted : Yields exhausted P := Yields.after fun _ => yields_unexpected

/-! ## Tokens -/

theorem yields_next (hnames : context.names) :
    Yields (next context) fun token => SpelledAs context token.text token.terminal :=
  fun _ _ _ hrun => Cursor.next_spelledAs hnames hrun

theorem yields_expect (hnames : context.names) (terminal : Terminal) :
    Yields (expect context terminal) fun token => SpelledAs context token.text terminal := by
  refine (yields_next hnames).bind fun token htoken => ?_
  split
  · next hterminal =>
    rw [hterminal] at htoken
    exact Yields.pure htoken
  · exact yields_unexpected

theorem yields_name : Yields name fun w => Lexeme.isWord w.text :=
  (yields_expect rfl .name).bind fun _ htoken => Yields.pure htoken.1

/-- Only the end of a text has no place of its own. -/
theorem yields_position {terminal : Terminal} (h : terminal ≠ .finish) :
    Yields (expect context terminal) fun token => token.position.isValid := by
  refine Yields.bind (fun _ _ _ => Cursor.isValid_of_next) fun token htoken => ?_
  split
  · next hterminal => exact Yields.pure (htoken.resolve_left (hterminal ▸ h))
  · exact yields_unexpected

theorem yields_placed : Yields name fun w => Lexeme.isWord w.text ∧ w.position.isValid :=
  yields_name.and ((yields_position (by simp)).bind fun _ htoken => Yields.pure htoken)

theorem yields_integer : Yields integer fun w => Lexeme.isInteger w.text :=
  (yields_expect rfl .integer).bind fun _ htoken => Yields.pure htoken

end Source.Reader

/-! ## Expressions -/

namespace Expr.Machine

variable {frame : Frame} {frames : List Frame} {v : Operand}

/-- The operands of a waiting frame are spelled. -/
def Frame.Spelled : Frame → Prop
  | .binary _ left => left.expr.Spelled
  | _ => True

/-- All that has been read of an expression is spelled. -/
def Spelled (m : Machine) : Prop :=
  (∀ frame ∈ m.frames, Frame.Spelled frame) ∧ ∀ v, m.mode = .operator v → v.expr.Spelled

theorem spelled_close (hframe : Frame.Spelled frame) (hv : v.expr.Spelled) : (Frame.close frame v).expr.Spelled := by
  cases frame with
  | binary op left => exact ⟨hframe, hv⟩
  | _ => exact hv

theorem spelled_collapse (level : Nat) (hframes : ∀ frame ∈ frames, Frame.Spelled frame) (hv : v.expr.Spelled) :
    (∀ frame ∈ (collapse level frames v).1, Frame.Spelled frame) ∧ (collapse level frames v).2.expr.Spelled := by
  induction frames generalizing v with
  | nil => exact ⟨hframes, hv⟩
  | cons frame frames ih =>
    rw [collapse]
    split
    · exact ih (fun f hf => hframes f (List.mem_cons_of_mem _ hf)) (spelled_close (hframes frame List.mem_cons_self) hv)
    · exact ⟨hframes, hv⟩

theorem spelled_operand (hframes : ∀ frame ∈ frames, Frame.Spelled frame) (hv : v.expr.Spelled) :
    Spelled ⟨frames, .operator v⟩ := by
  refine ⟨hframes, fun w hw => ?_⟩
  injection hw with hw
  rw [← hw]
  exact hv

theorem spelled_waiting {mode : Mode} (hframes : ∀ frame ∈ frames, Frame.Spelled frame)
    (hmode : ∀ v, mode ≠ .operator v) : Spelled ⟨frames, mode⟩ :=
  ⟨hframes, fun v hv => absurd hv (hmode v)⟩

theorem spelled_cons (hframe : Frame.Spelled frame) (hframes : ∀ f ∈ frames, Frame.Spelled f) :
    ∀ f ∈ frame :: frames, Frame.Spelled f := by
  intro f hf
  rcases List.mem_cons.mp hf with rfl | hf
  · exact hframe
  · exact hframes f hf

theorem spelled_push {op : Operator} (hframes : ∀ frame ∈ frames, Frame.Spelled frame) (hv : v.expr.Spelled) :
    Spelled (push op frames v) := by
  unfold push
  split
  next frames' v' heq =>
    split at heq
    · obtain ⟨rfl, rfl⟩ := Prod.mk.inj heq
      exact spelled_waiting (spelled_cons hv hframes) (by simp)
    · have hcollapse := spelled_collapse op.level hframes hv
      rw [heq] at hcollapse
      exact spelled_waiting (spelled_cons hcollapse.2 hcollapse.1) (by simp)

/-- What comes of a token is spelled. -/
def Step.Spelled : Step → Prop
  | .more m => m.Spelled
  | .done e => e.Spelled
  | .unexpected => True

theorem spelled_step_operand (hframes : ∀ frame ∈ frames, Frame.Spelled frame)
    (htoken : SpelledAs .operand token.text token.terminal) : (step ⟨frames, .operand⟩ token).Spelled := by
  simp only [step]
  split
  · next hterminal =>
    rw [hterminal] at htoken
    exact spelled_operand hframes htoken
  · exact spelled_operand hframes trivial
  · next hterminal =>
    rw [hterminal] at htoken
    exact spelled_operand hframes htoken
  · exact spelled_waiting hframes (by simp)
  · exact spelled_waiting (spelled_cons trivial hframes) (by simp)
  · exact spelled_waiting (spelled_cons trivial hframes) (by simp)
  · trivial

theorem spelled_step_operator (hframes : ∀ frame ∈ frames, Frame.Spelled frame) (hv : v.expr.Spelled) (token : Token) :
    (step ⟨frames, .operator v⟩ token).Spelled := by
  have hcollapse := spelled_collapse 0 hframes hv
  simp only [step]
  split
  · split
    · next heq => rw [heq] at hcollapse; exact hcollapse.2
    · next heq =>
      rw [heq] at hcollapse
      exact spelled_operand (fun f hf => hcollapse.1 f (List.mem_cons_of_mem _ hf))
        (spelled_close (hcollapse.1 _ List.mem_cons_self) hcollapse.2)
  · split
    · next heq => rw [heq] at hcollapse; exact hcollapse.2
    · trivial
  · split
    · exact spelled_push hframes hv
    · trivial
  · trivial

/-- One token keeps what has been read spelled. -/
theorem spelled_step (hm : m.Spelled)
    (htoken : SpelledAs (Source.Reader.expressionContext m) token.text token.terminal) : (m.step token).Spelled := by
  obtain ⟨frames, mode⟩ := m
  obtain ⟨hframes, hoperator⟩ := hm
  cases mode with
  | operand => exact spelled_step_operand hframes htoken
  | opening f p =>
    simp only [step]
    split
    · exact spelled_waiting (spelled_cons trivial hframes) (by simp)
    · trivial
  | operator v => exact spelled_step_operator hframes (hoperator v rfl) token

end Expr.Machine

namespace Source.Reader

open QasmCircuit.Expr (Machine)

theorem expressionContext_names (m : Machine) : (expressionContext m).names := by
  unfold expressionContext
  split <;> rfl

variable {n : Nat} {w : Word}

theorem yields_expressionFrom (hm : m.Spelled)
    (htoken : SpelledAs (expressionContext m) token.text token.terminal) :
    Yields (expressionFrom n m token) fun x => x.1.Spelled := by
  induction n generalizing m token with
  | zero => exact yields_exhausted
  | succ n ih =>
    have hstep := Expr.Machine.spelled_step hm htoken
    rw [expressionFrom]
    split
    · next m' heq =>
      rw [heq] at hstep
      exact (yields_next (expressionContext_names m')).bind fun _ h => ih hstep h
    · next e heq =>
      rw [heq] at hstep
      exact Yields.pure hstep
    · exact yields_unexpected

theorem spelled_start : Machine.start.Spelled :=
  Expr.Machine.spelled_waiting (fun _ h => absurd h (by simp)) (by simp)

theorem yields_expression : Yields expression fun x => x.1.Spelled :=
  Yields.after fun _ =>
    (yields_next rfl).bind fun _ htoken => yields_expressionFrom spelled_start htoken

theorem yields_expressionBefore (s : Symbol) : Yields (expressionBefore s) Expr.Spelled := by
  refine yields_expression.bind fun x hx => ?_
  obtain ⟨e, token⟩ := x
  dsimp only
  split
  · exact Yields.pure hx
  · exact yields_unexpected

theorem yields_expressionsAfter {e : Expr} (he : e.Spelled) (token : Token) :
    Yields (expressionsAfter n e token) fun es => ∀ x ∈ es, x.Spelled := by
  induction n generalizing e token with
  | zero => exact yields_exhausted
  | succ n ih =>
    rw [expressionsAfter]
    split
    · refine yields_expression.bind fun x hx => ?_
      refine (ih hx x.2).bind fun es hes => Yields.pure ?_
      exact List.forall_mem_cons.mpr ⟨he, hes⟩
    · exact Yields.pure (by simpa using he)

theorem yields_params (opening : Token) : Yields (params opening) fun ps => ∀ e ∈ ps.exprs, e.Spelled := by
  refine Yields.after fun n => ?_
  refine (yields_next rfl).bind fun token htoken => ?_
  split
  · exact Yields.pure (by simp)
  · refine (yields_expressionFrom spelled_start htoken).bind fun x hx => ?_
    refine Yields.after fun k => ?_
    exact (yields_expressionsAfter hx x.2).bind fun es hes => Yields.pure hes

/-! ## References and operations -/

theorem yields_referenceAfter (hw : Lexeme.isWord w.text) : Yields (referenceAfter w) fun x => x.1.Spelled := by
  refine Yields.after fun token => ?_
  split
  · refine yields_integer.bind fun i hi => ?_
    refine Yields.after fun _ => ?_
    refine Yields.after fun _ => Yields.pure ⟨hw, fun j hj => ?_⟩
    rw [← Option.mem_some_iff.mp hj]
    exact hi
  · exact Yields.pure ⟨hw, by simp⟩

theorem yields_referenceBefore (s : Symbol) : Yields (referenceBefore s) Reference.Spelled := by
  refine yields_name.bind fun w hw => ?_
  refine (yields_referenceAfter hw).bind fun x hx => ?_
  obtain ⟨r, token⟩ := x
  dsimp only
  split
  · exact Yields.pure hx
  · exact yields_unexpected

theorem yields_references (hw : Lexeme.isWord w.text) : Yields (references n w) ReferencesSpelled := by
  induction n generalizing w with
  | zero => exact yields_exhausted
  | succ n ih =>
    refine (yields_referenceAfter hw).bind fun x hx => ?_
    obtain ⟨r, token⟩ := x
    dsimp only
    split
    · refine yields_name.bind fun w' hw' => ?_
      refine (ih hw').bind fun rs hrs => Yields.pure ?_
      exact ⟨by simp, List.forall_mem_cons.mpr ⟨hx, hrs.2⟩⟩
    · exact Yields.pure ⟨by simp, by simpa using hx⟩
    · exact yields_unexpected

theorem yields_referenceList : Yields referenceList ReferencesSpelled :=
  yields_name.bind fun _ hw => Yields.after fun _ => yields_references hw

theorem yields_unitary (p : Position) (keywords : List Keyword) : Yields (unitary p) (Operation.Spelled keywords) := by
  refine Yields.after fun _ => ?_
  refine (yields_expressionBefore _).bind fun _ htheta => ?_
  refine (yields_expressionBefore _).bind fun _ hphi => ?_
  refine (yields_expressionBefore _).bind fun _ hlam => ?_
  refine (yields_referenceBefore _).bind fun _ htarget => ?_
  exact Yields.pure ⟨htheta, hphi, hlam, htarget⟩

theorem yields_controlledNot (p : Position) (keywords : List Keyword) :
    Yields (controlledNot p) (Operation.Spelled keywords) := by
  refine (yields_referenceBefore _).bind fun _ hcontrol => ?_
  refine (yields_referenceBefore _).bind fun _ htarget => ?_
  exact Yields.pure ⟨hcontrol, htarget⟩

theorem yields_call {gate : Word} {keywords : List Keyword} (hgate : IsName keywords gate.text) :
    Yields (call gate) (Operation.Spelled keywords) := by
  refine (yields_next rfl).bind fun token htoken => ?_
  split
  · refine (yields_params token).bind fun ps hps => ?_
    refine yields_referenceList.bind fun rs hrs => Yields.pure ⟨hgate, fun q hq => ?_, hrs⟩
    rw [← Option.mem_some_iff.mp hq]
    exact hps
  · next hterminal =>
    rw [hterminal] at htoken
    refine Yields.after fun _ => ?_
    exact (yields_references (w := ⟨token.text, token.position⟩) htoken.1).bind
      fun rs hrs => Yields.pure ⟨hgate, by simp, hrs⟩
  · exact yields_unexpected

theorem yields_operation {r : Reader Operation}
    (htoken : SpelledAs context token.text token.terminal) (hr : operation? token = some r) :
    Yields r (Operation.Spelled context.keywords) := by
  unfold operation? at hr
  split at hr
  · injection hr with hr
    rw [← hr]
    exact yields_unitary _ _
  · injection hr with hr
    rw [← hr]
    exact yields_controlledNot _ _
  · next hterminal =>
    rw [hterminal] at htoken
    injection hr with hr
    rw [← hr]
    exact yields_call htoken
  · exact absurd hr (by simp)

/-! ## Statements and declarations -/

theorem yields_measure (p : Position) (keywords : List Keyword) : Yields (measure p) (Action.Spelled keywords) := by
  refine (yields_referenceBefore _).bind fun _ hqubit => ?_
  refine (yields_referenceBefore _).bind fun _ hclbit => ?_
  exact Yields.pure ⟨hqubit, hclbit⟩

theorem yields_guarded (p : Position) : Yields (guarded p) Statement.Spelled := by
  refine Yields.after fun _ => ?_
  refine yields_placed.bind fun register hregister => ?_
  refine Yields.after fun _ => ?_
  refine yields_integer.bind fun value hvalue => ?_
  refine Yields.after fun _ => ?_
  refine (yields_next rfl).bind fun token htoken => ?_
  split
  · exact (yields_measure _ _).bind fun a ha => Yields.pure ⟨hregister.1, hvalue, ha, hregister.2⟩
  · next hr _ =>
    exact (yields_operation htoken hr).bind fun op hop => Yields.pure ⟨hregister.1, hvalue, hop, hregister.2⟩
  · exact yields_unexpected

theorem yields_register :
    Yields register fun x => Lexeme.isWord x.1.text ∧ Lexeme.isInteger x.2.text ∧ x.1.position.isValid := by
  refine yields_placed.bind fun _ hname => ?_
  refine Yields.after fun _ => ?_
  refine yields_integer.bind fun _ hsize => ?_
  refine Yields.after fun _ => ?_
  exact Yields.after fun _ => Yields.pure ⟨hname.1, hsize, hname.2⟩

theorem yields_names {ending : Symbol} (hw : Lexeme.isWord w.text) :
    Yields (names n ending w) fun x => x.1 ≠ [] ∧ ∀ v ∈ x.1, Lexeme.isWord v.text := by
  induction n generalizing w with
  | zero => exact yields_exhausted
  | succ n ih =>
    refine Yields.after fun token => ?_
    split
    · exact Yields.pure ⟨by simp, by simpa using hw⟩
    · split
      · refine yields_name.bind fun w' hw' => ?_
        refine (ih hw').bind fun x hx => Yields.pure ?_
        exact ⟨by simp, List.forall_mem_cons.mpr ⟨hw, hx.2⟩⟩
      · exact yields_unexpected

theorem yields_formals (opening : Token) : Yields (formals opening) fun f => ∀ w ∈ f.names, Lexeme.isWord w.text := by
  refine (yields_next rfl).bind fun token htoken => ?_
  split
  · exact Yields.pure (by simp)
  · next hterminal =>
    rw [hterminal] at htoken
    refine Yields.after fun _ => ?_
    exact (yields_names (w := ⟨token.text, token.position⟩) htoken.1).bind fun x hx => Yields.pure hx.2
  · exact yields_unexpected

theorem yields_body (hnames : context.names) : Yields (body n context) (BodySpelled context.keywords) := by
  induction n generalizing context with
  | zero => exact yields_exhausted
  | succ n ih =>
    refine (yields_next hnames).bind fun token htoken => ?_
    split
    · exact Yields.pure trivial
    · refine yields_referenceList.bind fun rs hrs => ?_
      exact (ih rfl).bind fun ss hss => Yields.pure ⟨hrs, hss⟩
    · next hr _ _ =>
      refine (yields_operation htoken hr).bind fun op hop => ?_
      exact (ih rfl).bind fun ss hss => Yields.pure ⟨hop, hss⟩
    · exact yields_unexpected

theorem yields_gate (p : Position) : Yields (gate p) Declaration.Spelled := by
  refine yields_name.bind fun gateName hname => ?_
  refine (yields_next rfl).bind fun token htoken => ?_
  have hrest : ∀ (ps : Option Formals) (first : Word),
      (∀ f ∈ ps, ∀ w ∈ f.names, Lexeme.isWord w.text) → Lexeme.isWord first.text →
      Yields (do
        let formals ← names (← rounds) .leftBrace first
        let statements ← body (← rounds) .body
        pure (Declaration.gate p gateName ps formals.1 formals.2.position statements)) Declaration.Spelled := by
    intro ps first hps hfirst
    refine Yields.after fun _ => ?_
    refine (yields_names hfirst).bind fun x hx => ?_
    refine Yields.after fun _ => ?_
    exact (yields_body rfl).bind fun ss hss => Yields.pure ⟨hname, hps, hx, hss⟩
  split
  · refine (yields_formals token).bind fun ps hps => ?_
    refine yields_name.bind fun first hfirst => ?_
    refine hrest (some ps) first (fun f hf => ?_) hfirst
    rw [← Option.mem_some_iff.mp hf]
    exact hps
  · next hterminal =>
    rw [hterminal] at htoken
    exact hrest none ⟨token.text, token.position⟩ (by simp) htoken.1
  · exact Yields.bind (yields_unexpected (P := fun _ => False)) fun _ h => absurd h id

/-! ## Programs -/

theorem yields_item (htoken : SpelledAs .statement token.text token.terminal) : Yields (item token) Item.Spelled := by
  unfold item
  dsimp only
  split
  · refine (yields_expect rfl .string).bind fun path hpath => ?_
    exact Yields.after fun _ => Yields.pure hpath
  · exact yields_register.bind fun x hx => Yields.pure hx
  · exact yields_register.bind fun x hx => Yields.pure hx
  · exact (yields_gate _).bind fun d hd => Yields.pure hd
  · exact (yields_guarded _).bind fun s hs => Yields.pure hs
  · exact (yields_measure _ Keyword.statements).bind fun a ha => Yields.pure ha
  · exact yields_referenceList.bind fun rs hrs => Yields.pure hrs
  · next hr _ _ _ _ _ _ _ =>
    exact (yields_operation htoken hr).bind fun op hop => Yields.pure hop
  · exact yields_unexpected

theorem yields_items (n : Nat) : Yields (items n) fun is => ∀ i ∈ is, i.Spelled := by
  induction n with
  | zero => exact yields_exhausted
  | succ n ih =>
    refine (yields_next rfl).bind fun token htoken => ?_
    split
    · exact Yields.pure (by simp)
    · refine (yields_item htoken).bind fun i hi => ?_
      exact ih.bind fun is his => Yields.pure (List.forall_mem_cons.mpr ⟨hi, his⟩)

theorem yields_program : Yields program Source.Spelled := by
  refine Yields.after fun opening => ?_
  refine (yields_expect rfl .number).bind fun version hversion => ?_
  refine Yields.after fun _ => ?_
  refine Yields.after fun n => ?_
  exact (yields_items n).bind fun is his => Yields.pure ⟨hversion, his⟩

end Source.Reader

/-- A program that was read from a text is spelled. -/
theorem Source.spelled_of_parse {text : String} {s : Source} (h : Source.parse text = .ok s) : s.Spelled := by
  obtain ⟨x, hx, rfl⟩ := map_eq_ok.mp h
  exact Reader.yields_program _ x.1 x.2 hx

end QasmCircuit
