import QasmCircuit.Source.Reader
import QasmCircuit.Proofs.Expr.Grammar
import QasmCircuit.Proofs.Outcome
import QasmCircuit.Proofs.Token.Lexing

/-!
# The reader of expressions follows the grammar

The machine that reads expressions keeps what a reader by the rules would keep: the frames that wait for an operand
spell the tokens read so far, and fix the category of what can come next (`Opens`). Closing frames applies rules
(`Opens.collapse`), so whatever the machine accepts has a derivation. In the other direction the machine can be led
along any derivation (`Derivation.run`), on top of any frames that leave room for it.

> `reads_by_grammar`: tokens are read as an expression exactly if they have a derivation, which is then unique, and the
> tree is the one of the derivation.
-/

namespace QasmCircuit

open QasmCircuit.Expr (Machine Frame Operand)
open QasmCircuit.Expr.Machine (collapse)

variable {ts : List Token} {m m' : Machine} {e : Expr} {target : Category} {f : Function}

namespace Expr

variable {next b : Category} {op : Operator} {frames : List Frame} {t : Token}

namespace Derivation

variable {c : Category}

def expr {c : Category} : Derivation c → Expr
  | .primary .number t => .number t.token.position t.token.text
  | .primary .pi t => .pi t.token.position
  | .primary .name t => .param t.token.position t.token.text
  | @call f t _ argument _ => .call t.token.position f argument.expr
  | .group _ inner _ => inner.expr
  | .pow base _ exponent => .binary base.start .pow base.expr exponent.expr
  | .neg sign operand => .neg sign.token.position operand.expr
  | @join op _ _ _ left _ right => .binary left.start op left.expr right.expr
  | .single _ only => only.expr

/-- A derivation as an operand of the machine. -/
def operand (d : Derivation c) : Operand := ⟨d.expr, d.start⟩

theorem toTree_expr (d : Derivation c) : d.expr.toTree = d.tree := by
  induction d with
  | primary kind t => cases kind <;> rfl
  | call t opening argument closing ih => simp only [expr, toTree, tree, ih]
  | group opening inner closing ih => exact ih
  | pow base sign exponent ihb ihe => simp only [expr, toTree, tree, ihb, ihe, Operator.label]
  | neg sign operand ih => simp only [expr, toTree, tree, ih]
  | join hjoins left sign right ihl ihr => simp only [expr, toTree, tree, ihl, ihr]
  | single hincludes only ih => exact ih

/-- Derivations that are the same operand have the same tree. -/
theorem tree_eq {c' : Category} {d : Derivation c} {d' : Derivation c'} (h : d.operand = d'.operand) :
    d.tree = d'.tree := by
  have hexpr : d.expr = d'.expr := congrArg Operand.expr h
  rw [← d.toTree_expr, hexpr, d'.toTree_expr]

end Derivation

theorem Includes.level {c : Category} (h : Includes c next) : next.level = c.level + 1 := by
  cases h <;> rfl

theorem Joins.level {c : Category} (h : Joins op c next) : op.level = c.level := by
  cases h <;> rfl

/-- A sentence of a category is one of every category that binds less tightly. -/
theorem Derivation.exists_of_le {c : Category} (d : Derivation c) (c' : Category) (h : c'.level ≤ c.level) :
    ∃ d' : Derivation c', d'.tokens = d.tokens ∧ d'.operand = d.operand := by
  by_cases hc : c' = c
  · subst hc
    exact ⟨d, rfl, rfl⟩
  · obtain ⟨before, hbefore⟩ : ∃ before, Includes before c := by
      cases c with
      | sum => cases c' <;> simp [Category.level] at h hc
      | product => exact ⟨_, .sum⟩
      | unary => exact ⟨_, .product⟩
      | power => exact ⟨_, .unary⟩
      | atom => exact ⟨_, .power⟩
    have hlevel := hbefore.level
    have hlt : c'.level < c.level := by
      refine lt_of_le_of_ne h fun heq => hc ?_
      cases c <;> cases c' <;> simp_all [Category.level]
    exact exists_of_le (single hbefore d) c' (by omega)
termination_by c.level

/-! ## Frames that stay open -/

/-- An operator of a level would leave the frames as they are. -/
def Free (level : Nat) (frames : List Frame) : Prop :=
  ∀ frame ∈ frames.head?, Machine.Frame.binds level frame = false

variable {k : Nat} {frame : Frame}

theorem collapse_of_free (h : Free k frames) (v : Operand) : collapse k frames v = (frames, v) := by
  cases frames with
  | nil => rfl
  | cons frame frames =>
    rw [collapse, h frame rfl]
    rfl

theorem Free.mono {l : Nat} (h : Free k frames) (hkl : k ≤ l) : Free l frames := by
  intro frame hframe
  have hbinds := h frame hframe
  cases frame with
  | negate p =>
    simp only [Machine.Frame.binds, decide_eq_false_iff_not] at hbinds ⊢
    omega
  | binary op left =>
    simp only [Machine.Frame.binds, decide_eq_false_iff_not] at hbinds ⊢
    omega
  | _ => rfl

/-- What binds nothing leaves room for any expression. -/
theorem free_cons (h : Machine.Frame.binds k frame = false) : Free k (frame :: frames) := by
  intro f hf
  cases hf
  exact h

/-! ## What the machine has read -/

/-- Some frames spell some tokens, and wait for a sentence of a category. -/
inductive Opens : Category → List Frame → List Token → Prop
  | start : Opens .sum [] []
  | group {b : Category} {frames : List Frame} {ts : List Token} (below : Opens b frames ts)
      (opening : Leaf (.symbol .leftParen)) : Opens .sum (.group opening.token.position :: frames)
      (ts ++ [opening.token])
  | call {b : Category} {frames : List Frame} {ts : List Token} (below : Opens b frames ts) {f : Function}
      (t : Leaf (.keyword (.function f))) (opening : Leaf (.symbol .leftParen)) :
      Opens .sum (.call f t.token.position :: frames) (ts ++ [t.token, opening.token])
  | pow {b : Category} {frames : List Frame} {ts : List Token} (below : Opens b frames ts) (base : Derivation .atom)
      (sign : Leaf (.symbol Operator.pow.mark)) :
      Opens .unary (.binary .pow base.operand :: frames) (ts ++ (base.tokens ++ [sign.token]))
  | neg {b : Category} {frames : List Frame} {ts : List Token} (below : Opens b frames ts)
      (sign : Leaf (.symbol .minus)) :
      Opens .unary (.negate sign.token.position :: frames) (ts ++ [sign.token])
  | join {b c next : Category} {frames : List Frame} {ts : List Token} (below : Opens b frames ts) {op : Operator}
      (h : Joins op c next) (hb : b.level ≤ c.level) (left : Derivation c) (sign : Leaf (.symbol op.mark)) :
      Opens next (.binary op left.operand :: frames) (ts ++ (left.tokens ++ [sign.token]))

theorem Opens.level_le (h : Opens b frames ts) : b.level ≤ negationLevel := by
  cases h with
  | join below h => cases h <;> decide
  | _ => decide

theorem Category.one_le_level (c : Category) : 1 ≤ c.level := by
  cases c <;> decide

/-- Closing the frames that bind at least as tightly as a level leaves a sentence of a category, behind frames that wait
for one. -/
def Settles (target : Category) (k : Nat) (frames : List Frame) (ts : List Token) {c : Category}
    (d : Derivation c) : Prop :=
  ∃ b frames' ts', ∃ d' : Derivation target, Opens b frames' ts' ∧ b.level ≤ target.level ∧
    collapse k frames d.operand = (frames', d'.operand) ∧ ts' ++ d'.tokens = ts ++ d.tokens

theorem Opens.settles {c : Category} (h : Opens b frames ts) (hb : b.level ≤ target.level)
    (d : Derivation c) (hc : target.level ≤ c.level) (hk : collapse k frames d.operand = (frames, d.operand)) :
    Settles target k frames ts d := by
  obtain ⟨d', htokens, hoperand⟩ := d.exists_of_le _ hc
  exact ⟨b, frames, ts, d', h, hb, by rw [hk, hoperand], by rw [htokens]⟩

/-- A frame that is closed applies the rule that it stands for. -/
theorem Settles.close {c c' : Category} {spelled : List Token} {d : Derivation c}
    {whole : Derivation c'} (h : Settles target k frames ts whole) (hbinds : Machine.Frame.binds k frame)
    (hclose : Machine.Frame.close frame d.operand = whole.operand) (htokens : whole.tokens = spelled ++ d.tokens) :
    Settles target k (frame :: frames) (ts ++ spelled) d := by
  obtain ⟨b, frames', ts', d', hopens, hb, hcollapse, hspelled⟩ := h
  refine ⟨b, frames', ts', d', hopens, hb, ?_, ?_⟩
  · rw [Machine.collapse, if_pos hbinds, hclose, hcollapse]
  · rw [hspelled, htokens, List.append_assoc]

/-- The induction is on the frames. What is closed so far is a sentence `d` of any category that the frames wait for. -/
theorem Opens.settles_of_le (h : Opens b frames ts) (k : Nat) (target : Category) (hk : target.level = max k 1)
    (htarget : target.level ≤ Operator.mul.level) {c : Category} (d : Derivation c) (hb : b.level ≤ c.level)
    (hc : target.level ≤ c.level) : Settles target k frames ts d := by
  have hsum := target.one_le_level
  have hmul : Operator.mul.level = 2 := rfl
  have hnegation : negationLevel = 3 := rfl
  have hunary : Category.unary.level = 3 := rfl
  have hpower : Category.power.level = 4 := rfl
  induction h generalizing c with
  | start => exact Opens.start.settles hsum d hc rfl
  | group below opening => exact (below.group opening).settles hsum d hc rfl
  | call below t opening => exact (below.call t opening).settles hsum d hc rfl
  | pow below base sign ih =>
    obtain ⟨exponent, htokens, hoperand⟩ := d.exists_of_le _ hb
    have hlevel := below.level_le
    refine (ih (.pow base sign exponent) (by omega) (by omega)).close ?_ ?_ ?_
    · exact decide_eq_true (show k ≤ 4 by omega)
    · rw [← hoperand]
      rfl
    · rw [← htokens, Derivation.tokens, List.append_assoc]
      rfl
  | neg below sign ih =>
    obtain ⟨operand, htokens, hoperand⟩ := d.exists_of_le _ hb
    have hlevel := below.level_le
    refine (ih (.neg sign operand) (by omega) (by omega)).close ?_ ?_ ?_
    · exact decide_eq_true (show k ≤ negationLevel by omega)
    · rw [← hoperand]
      rfl
    · rw [← htokens]
      rfl
  | @join b c₀ next frames ts below op hjoins hbelow left sign ih =>
    have hop := hjoins.level
    have hnext := hjoins.includes.level
    have hfirst := c₀.one_le_level
    by_cases hbinds : k ≤ op.level
    · obtain ⟨right, htokens, hoperand⟩ := d.exists_of_le _ hb
      refine (ih (.join hjoins left sign right) hbelow (by omega)).close (decide_eq_true hbinds) ?_ ?_
      · rw [← hoperand]
        rfl
      · rw [← htokens, Derivation.tokens, List.append_assoc]
        rfl
    · -- The operator of a product leaves the frame of a sum open, which waits for a product.
      refine (below.join hjoins hbelow left sign).settles (by omega) d hc ?_
      have hfree : Machine.Frame.binds k (.binary op left.operand) = false := decide_eq_false hbinds
      exact collapse_of_free (free_cons hfree) d.operand

/-! ## What the machine accepts has a derivation -/

/-- The tokens that a state of the machine has read. -/
def HasRead (ts : List Token) (m : Machine) : Prop :=
  ∃ b before, Opens b m.frames before ∧
    match m.mode with
    | .operand => ts = before
    | .opening f p => ∃ t : Leaf (.keyword (.function f)), t.token.position = p ∧ ts = before ++ [t.token]
    | .operator v => ∃ d : Derivation .atom, d.operand = v ∧ ts = before ++ d.tokens

section

variable (h : Opens b frames ts)

include h

theorem hasRead_operand : HasRead ts ⟨frames, .operand⟩ :=
  ⟨b, ts, h, rfl⟩

theorem hasRead_operator (d : Derivation .atom) : HasRead (ts ++ d.tokens) ⟨frames, .operator d.operand⟩ :=
  ⟨b, ts, h, d, rfl, rfl⟩

/-- A token where an operand must begin. -/
theorem Opens.step_operand (hstep : Machine.step ⟨frames, .operand⟩ t = .more m) : HasRead (ts ++ [t]) m := by
  simp only [Machine.step] at hstep
  split at hstep
  case h_1 ht =>
    cases hstep
    exact hasRead_operator h (.primary .number ⟨t, ht⟩)
  case h_2 ht =>
    cases hstep
    exact hasRead_operator h (.primary .pi ⟨t, ht⟩)
  case h_3 ht =>
    cases hstep
    exact hasRead_operator h (.primary .name ⟨t, ht⟩)
  case h_4 f ht =>
    cases hstep
    exact ⟨b, ts, h, ⟨t, ht⟩, rfl, rfl⟩
  case h_5 ht =>
    cases hstep
    exact hasRead_operand (h.group ⟨t, ht⟩)
  case h_6 ht =>
    cases hstep
    exact hasRead_operand (h.neg ⟨t, ht⟩)
  case h_7 => cases hstep

theorem Opens.step_opening (name : Leaf (.keyword (.function f)))
    (hstep : Machine.step ⟨frames, .opening f name.token.position⟩ t = .more m) :
    HasRead (ts ++ [name.token] ++ [t]) m := by
  simp only [Machine.step] at hstep
  split at hstep
  case h_1 ht =>
    cases hstep
    rw [List.append_assoc]
    exact hasRead_operand (h.call name ⟨t, ht⟩)
  case h_2 => cases hstep

end

/-- A closing parenthesis closes what is open up to the parenthesis that it belongs to. -/
theorem Opens.step_closing (h : Opens .sum (frame :: frames) ts) (d : Derivation .sum)
    (closing : Leaf (.symbol .rightParen)) :
    HasRead (ts ++ d.tokens ++ [closing.token]) ⟨frames, .operator (Machine.Frame.close frame d.operand)⟩ := by
  cases h with
  | @group b frames ts below opening =>
    have hread : HasRead _ ⟨frames, .operator (Machine.Frame.close (.group opening.token.position) d.operand)⟩ :=
      hasRead_operator below (.group opening d closing)
    simpa [Derivation.tokens] using hread
  | @call b frames ts below f t opening =>
    have hread : HasRead _ ⟨frames, .operator (Machine.Frame.close (.call f t.token.position) d.operand)⟩ :=
      hasRead_operator below (.call t opening d closing)
    simpa [Derivation.tokens] using hread
  | join below hjoins => cases hjoins

theorem operatorOf?_eq_some {s : Symbol} (h : Machine.operatorOf? s = some op) : s = op.mark := by
  cases s <;> simp only [Machine.operatorOf?, Option.some.injEq, reduceCtorEq] at h <;> subst h <;> rfl

theorem exists_joins (h : op ≠ .pow) : ∃ c next, Joins op c next := by
  cases op with
  | add => exact ⟨_, _, .add⟩
  | sub => exact ⟨_, _, .sub⟩
  | mul => exact ⟨_, _, .mul⟩
  | div => exact ⟨_, _, .div⟩
  | pow => exact absurd rfl h

/-- Behind an atom, an operator takes the sentence of its category to its left. -/
theorem Opens.push (h : Opens b frames ts) (d : Derivation .atom) (sign : Leaf (.symbol op.mark)) :
    HasRead (ts ++ d.tokens ++ [sign.token]) (Machine.push op frames d.operand) := by
  by_cases hpow : op = .pow
  · subst hpow
    rw [List.append_assoc]
    exact hasRead_operand (h.pow d sign)
  · obtain ⟨c, next, hjoins⟩ := exists_joins hpow
    have hlevel := hjoins.level
    have hsum := c.one_le_level
    have hmul : c.level ≤ Operator.mul.level := by cases hjoins <;> decide
    have hatom : Category.atom.level = 5 := rfl
    have hunary := h.level_le
    simp only [negationLevel, Operator.level] at hmul hunary
    obtain ⟨b', frames', ts', d', hopens, hb', hcollapse, htokens⟩ :=
      h.settles_of_le op.level c (by omega) hmul d (by omega) (by omega)
    have hpush : Machine.push op frames d.operand = ⟨.binary op d'.operand :: frames', .operand⟩ := by
      rw [Machine.push, if_neg hpow, hcollapse]
    rw [hpush, ← htokens, List.append_assoc]
    exact hasRead_operand (hopens.join hjoins hb' d' sign)

theorem settles_atom (h : Opens b frames ts) (d : Derivation .atom) :
    ∃ frames' ts', ∃ d' : Derivation .sum, Opens .sum frames' ts' ∧
      collapse 0 frames d.operand = (frames', d'.operand) ∧ ts' ++ d'.tokens = ts ++ d.tokens := by
  have hlevel := h.level_le
  obtain ⟨b', frames', ts', d', hopens, hb', hcollapse, htokens⟩ :=
    h.settles_of_le 0 .sum rfl (by decide) d (le_trans hlevel (by decide)) (by decide)
  have hsum : b' = .sum := by cases b' <;> simp [Category.level] at hb' ⊢
  subst hsum
  exact ⟨frames', ts', d', hopens, hcollapse, htokens⟩

theorem Opens.step_operator (h : Opens b frames ts) (d : Derivation .atom)
    (hstep : Machine.step ⟨frames, .operator d.operand⟩ t = .more m) : HasRead (ts ++ d.tokens ++ [t]) m := by
  obtain ⟨frames', ts', d', hopens, hcollapse, htokens⟩ := settles_atom h d
  simp only [Machine.step, hcollapse] at hstep
  split at hstep
  case h_1 ht =>
    cases frames' with
    | nil => cases hstep
    | cons frame frames' =>
      cases hstep
      rw [← htokens]
      exact hopens.step_closing d' ⟨t, ht⟩
  case h_2 ht => split at hstep <;> cases hstep
  case h_3 s _ _ ht =>
    split at hstep
    case h_1 op hop =>
      cases hstep
      cases operatorOf?_eq_some hop
      exact h.push d ⟨t, ht⟩
    case h_2 => cases hstep
  case h_4 => cases hstep

theorem HasRead.step (h : HasRead ts m) (hstep : m.step t = .more m') : HasRead (ts ++ [t]) m' := by
  obtain ⟨frames, mode⟩ := m
  obtain ⟨b, before, hopens, hmode⟩ := h
  cases mode with
  | operand =>
    cases hmode
    exact hopens.step_operand hstep
  | opening f p =>
    obtain ⟨name, rfl, rfl⟩ := hmode
    exact hopens.step_opening name hstep
  | operator v =>
    obtain ⟨d, rfl, rfl⟩ := hmode
    exact hopens.step_operator d hstep

theorem HasRead.run {read : List Token} (h : HasRead read m) (hrun : m.run? ts = some m') :
    HasRead (read ++ ts) m' := by
  induction ts generalizing m read with
  | nil =>
    cases hrun
    rw [List.append_nil]
    exact h
  | cons t ts ih =>
    rw [Machine.run?] at hrun
    split at hrun
    case h_1 m₁ hstep =>
      have := ih (h.step hstep) hrun
      rwa [List.append_assoc] at this
    case h_2 => cases hrun

/-- What the machine has read, when nothing waits for an operand any more, has a derivation. -/
theorem HasRead.finish (h : HasRead ts m) (hfinish : m.finish? = some e) :
    ∃ d : Derivation .sum, d.tokens = ts ∧ d.expr = e := by
  obtain ⟨frames, mode⟩ := m
  obtain ⟨b, before, hopens, hmode⟩ := h
  cases mode with
  | operator v =>
    obtain ⟨d, rfl, rfl⟩ := hmode
    obtain ⟨frames', ts', d', hopens', hcollapse, htokens⟩ := settles_atom hopens d
    simp only [Machine.finish?, hcollapse] at hfinish
    cases frames' with
    | cons frame frames' => cases hfinish
    | nil =>
      cases hfinish
      cases hopens' with
      | start => exact ⟨d', htokens, rfl⟩
  | _ => cases hfinish

/-! ## What has a derivation is accepted -/

theorem Machine.run?_append (m : Machine) (ts ts' : List Token) :
    m.run? (ts ++ ts') = (m.run? ts).bind fun m' => m'.run? ts' := by
  induction ts generalizing m with
  | nil => rfl
  | cons t ts ih =>
    simp only [List.cons_append, Machine.run?]
    split
    · exact ih _
    · rfl

theorem Machine.run?_cons (h : m.step t = .more m') (ts : List Token) : m.run? (t :: ts) = m'.run? ts := by
  rw [Machine.run?, h]

theorem step_mark (sign : Leaf (.symbol op.mark)) (frames : List Frame) (v : Operand) :
    Machine.step ⟨frames, .operator v⟩ sign.token = .more (Machine.push op frames v) := by
  simp only [Machine.step, sign.terminal_eq]
  cases op <;> rfl

/-- The machine, in front of the tokens of a derivation, comes to a state behind them in which the derivation can be
closed: an operator that binds no tighter has it as its left operand. -/
def IsRun {c : Category} (d : Derivation c) : Prop :=
  ∀ frames : List Frame, (c.level ≤ Operator.mul.level → Free c.level frames) →
    ∃ opened v, Machine.run? ⟨frames, .operand⟩ d.tokens = some ⟨opened, .operator v⟩ ∧
      (c = .atom → opened = frames ∧ v = d.operand) ∧
      ∀ k ≤ Operator.mul.level, k ≤ c.level → collapse k opened v = collapse k frames d.operand

/-- A closing parenthesis behind a sentence that stands behind its opening one. -/
theorem IsRun.closing {d : Derivation .sum} (h : IsRun d)
    (hframe : ∀ k, Machine.Frame.binds k frame = false) (frames : List Frame) (closing : Leaf (.symbol .rightParen)) :
    Machine.run? ⟨frame :: frames, .operand⟩ (d.tokens ++ [closing.token]) =
      some ⟨frames, .operator (Machine.Frame.close frame d.operand)⟩ := by
  obtain ⟨opened, v, hrun, -, hcollapse⟩ := h (frame :: frames) fun _ => free_cons (hframe _)
  have hclosed := (hcollapse 0 (by decide) (by decide)).trans (collapse_of_free (free_cons (hframe 0)) _)
  have hstep : Machine.step ⟨opened, .operator v⟩ closing.token =
      .more ⟨frames, .operator (Machine.Frame.close frame d.operand)⟩ := by
    simp only [Machine.step, closing.terminal_eq, hclosed]
  rw [Machine.run?_append, hrun]
  exact Machine.run?_cons hstep []

theorem isRun_atom {d : Derivation .atom}
    (h : ∀ frames : List Frame, Machine.run? ⟨frames, .operand⟩ d.tokens = some ⟨frames, .operator d.operand⟩) :
    IsRun d :=
  fun frames _ => ⟨frames, d.operand, h frames, fun _ => ⟨rfl, rfl⟩, fun _ _ _ => rfl⟩

theorem isRun_primary (kind : Primary) (t : Leaf kind.terminal) : IsRun (.primary kind t) := by
  refine isRun_atom fun frames => Machine.run?_cons ?_ []
  cases kind <;> simp only [Machine.step, t.terminal_eq, Primary.terminal] <;> rfl

theorem isRun_call {argument : Derivation .sum} (h : IsRun argument)
    (t : Leaf (.keyword (.function f))) (opening : Leaf (.symbol .leftParen)) (closing : Leaf (.symbol .rightParen)) :
    IsRun (.call t opening argument closing) := by
  refine isRun_atom fun frames => ?_
  have hname : Machine.step ⟨frames, .operand⟩ t.token = .more ⟨frames, .opening f t.token.position⟩ := by
    simp only [Machine.step, t.terminal_eq]
  have hopening : Machine.step ⟨frames, .opening f t.token.position⟩ opening.token =
      .more ⟨.call f t.token.position :: frames, .operand⟩ := by
    simp only [Machine.step, opening.terminal_eq]
  rw [Derivation.tokens, Machine.run?_cons hname, Machine.run?_cons hopening]
  exact h.closing (fun _ => rfl) frames closing

theorem isRun_group {inner : Derivation .sum} (h : IsRun inner) (opening : Leaf (.symbol .leftParen))
    (closing : Leaf (.symbol .rightParen)) : IsRun (.group opening inner closing) := by
  refine isRun_atom fun frames => ?_
  have hopening : Machine.step ⟨frames, .operand⟩ opening.token =
      .more ⟨.group opening.token.position :: frames, .operand⟩ := by
    simp only [Machine.step, opening.terminal_eq]
  rw [Derivation.tokens, Machine.run?_cons hopening]
  exact h.closing (fun _ => rfl) frames closing

theorem isRun_pow {base : Derivation .atom} {exponent : Derivation .unary} (hb : IsRun base) (he : IsRun exponent)
    (sign : Leaf (.symbol Operator.pow.mark)) : IsRun (.pow base sign exponent) := by
  intro frames _
  obtain ⟨opened, v, hrun, hatom, -⟩ := hb frames fun h => absurd h (by decide)
  obtain ⟨rfl, rfl⟩ := hatom rfl
  obtain ⟨opened', v', hrun', -, hcollapse⟩ := he (.binary .pow base.operand :: opened) fun h => absurd h (by decide)
  refine ⟨opened', v', ?_, fun h => (by cases h), fun k hk _ => ?_⟩
  · rw [Derivation.tokens, Machine.run?_append, hrun]
    exact (Machine.run?_cons (step_mark sign _ _) _).trans hrun'
  · have hbinds : Machine.Frame.binds k (.binary .pow base.operand) :=
      decide_eq_true (le_trans hk (by decide))
    rw [hcollapse k hk (le_trans hk (by decide)), collapse, if_pos hbinds]
    rfl

theorem isRun_neg {operand : Derivation .unary} (h : IsRun operand) (sign : Leaf (.symbol .minus)) :
    IsRun (.neg sign operand) := by
  intro frames _
  obtain ⟨opened, v, hrun, -, hcollapse⟩ := h (.negate sign.token.position :: frames) fun h => absurd h (by decide)
  have hsign : Machine.step ⟨frames, .operand⟩ sign.token =
      .more ⟨.negate sign.token.position :: frames, .operand⟩ := by
    simp only [Machine.step, sign.terminal_eq]
  refine ⟨opened, v, (Machine.run?_cons hsign _).trans hrun, fun h => (by cases h), fun k hk _ => ?_⟩
  have hbinds : Machine.Frame.binds k (.negate sign.token.position) := decide_eq_true (le_trans hk (by decide))
  rw [hcollapse k hk (le_trans hk (by decide)), collapse, if_pos hbinds]
  rfl

theorem isRun_join {c : Category} (hjoins : Joins op c next) {left : Derivation c} {right : Derivation next}
    (hl : IsRun left) (hr : IsRun right) (sign : Leaf (.symbol op.mark)) : IsRun (.join hjoins left sign right) := by
  intro frames hfree
  have hlevel := hjoins.level
  have hnext := hjoins.includes.level
  have hmul : c.level ≤ Operator.mul.level := by cases hjoins <;> decide
  have hpow : op ≠ .pow := by cases hjoins <;> decide
  obtain ⟨opened, v, hrun, -, hcollapse⟩ := hl frames hfree
  -- The operator closes what is open of its left operand, and nothing below.
  have hpush : Machine.push op opened v = ⟨.binary op left.operand :: frames, .operand⟩ := by
    rw [Machine.push, if_neg hpow, hlevel, hcollapse c.level hmul (Nat.le_refl _), collapse_of_free (hfree hmul)]
  have hroom : Machine.Frame.binds next.level (.binary op left.operand) = false :=
    decide_eq_false (by omega)
  obtain ⟨opened', v', hrun', -, hcollapse'⟩ := hr (.binary op left.operand :: frames) fun _ => free_cons hroom
  refine ⟨opened', v', ?_, fun h => (by subst h; cases hjoins), fun k hk hc => ?_⟩
  · rw [Derivation.tokens, Machine.run?_append, hrun]
    exact (Machine.run?_cons (step_mark sign _ _) _).trans (by rw [hpush]; exact hrun')
  · have hbinds : Machine.Frame.binds k (.binary op left.operand) := decide_eq_true (by omega)
    rw [hcollapse' k hk (by omega), collapse, if_pos hbinds]
    rfl

theorem isRun_single {c : Category} (hincludes : Includes c next) {only : Derivation next} (h : IsRun only) :
    IsRun (.single hincludes only) := by
  intro frames hfree
  have hlevel := hincludes.level
  obtain ⟨opened, v, hrun, -, hcollapse⟩ := h frames fun hmul => (hfree (by omega)).mono (by omega)
  exact ⟨opened, v, hrun, fun h => (by subst h; cases hincludes), fun k hk hc => hcollapse k hk (by omega)⟩

theorem isRun {c : Category} (d : Derivation c) : IsRun d := by
  induction d with
  | primary kind t => exact isRun_primary kind t
  | call t opening argument closing ih => exact isRun_call ih t opening closing
  | group opening inner closing ih => exact isRun_group ih opening closing
  | pow base sign exponent ihb ihe => exact isRun_pow ihb ihe sign
  | neg sign operand ih => exact isRun_neg ih sign
  | join hjoins left sign right ihl ihr => exact isRun_join hjoins ihl ihr sign
  | single hincludes only ih => exact isRun_single hincludes ih

/-- The machine behind the tokens of a sentence. -/
theorem Derivation.run_tokens (d : Derivation .sum) :
    ∃ opened v, Machine.start.run? d.tokens = some ⟨opened, .operator v⟩ ∧ collapse 0 opened v = ([], d.operand) := by
  obtain ⟨opened, v, hrun, -, hcollapse⟩ := isRun d [] fun _ _ hframe => absurd hframe (by simp)
  exact ⟨opened, v, hrun, hcollapse 0 (by decide) (by decide)⟩

theorem ofTokens?_eq_some : ofTokens? ts = some e ↔ ∃ d : Derivation .sum, d.tokens = ts ∧ d.expr = e := by
  rw [ofTokens?, Option.bind_eq_some_iff]
  constructor
  · rintro ⟨m, hrun, hfinish⟩
    exact ((hasRead_operand Opens.start).run hrun).finish hfinish
  · rintro ⟨d, rfl, rfl⟩
    obtain ⟨opened, v, hrun, hcollapse⟩ := d.run_tokens
    refine ⟨_, hrun, ?_⟩
    simp only [Machine.finish?, hcollapse]
    rfl

/-- Some tokens are read as an expression with a tree. -/
def IsReadAs (ts : List Token) (t : Tree) : Prop := ∃ e, ofTokens? ts = some e ∧ e.toTree = t

theorem isReadAs_iff {t : Tree} : IsReadAs ts t ↔ ∃ d : Derivation .sum, d.tokens = ts ∧ d.tree = t := by
  simp only [IsReadAs, ofTokens?_eq_some]
  constructor
  · rintro ⟨_, ⟨d, hd, rfl⟩, rfl⟩
    exact ⟨d, hd, d.toTree_expr.symm⟩
  · rintro ⟨d, hd, rfl⟩
    exact ⟨d.expr, ⟨d, hd, rfl⟩, d.toTree_expr⟩

/-- A sentence of any category is read as its tree. -/
theorem Derivation.isReadAs {c : Category} (d : Derivation c) : IsReadAs d.tokens d.tree := by
  obtain ⟨d', htokens, hoperand⟩ := d.exists_of_le .sum c.one_le_level
  rw [← htokens, ← tree_eq hoperand]
  exact isReadAs_iff.mpr ⟨d', rfl, rfl⟩

end Expr

/-! ## Reading from a text -/

namespace Source.Reader

open Outcome (bind_eq_ok)

variable {t ending : Token} {n : Nat} {c c' : Cursor}

/-- Goes on with an expression from a state between two tokens. -/
def resume (n : Nat) (m : Machine) : Reader (Expr × Token) := do
  let token ← next (expressionContext m)
  expressionFrom n m token

/-- What the token in front of a token of an expression makes of it. -/
def contextBehind : Option Token → Context
  | none => .operand
  | some t =>
    match t.terminal with
    | .number | .name | .keyword .pi | .symbol .rightParen => .operator
    | .keyword (.function _) => .any
    | _ => .operand

/-- The tokens between two points, each one read in the context of the token in front of it. -/
inductive Spells : Option Token → Cursor → List Token → Cursor → Prop
  | nil {last : Option Token} {c : Cursor} : Spells last c [] c
  | cons {last : Option Token} {c c₁ c₂ : Cursor} {t : Token} {ts : List Token}
      (hnext : c.next (contextBehind last) = .ok (t, c₁)) (hrest : Spells (some t) c₁ ts c₂) :
      Spells last c (t :: ts) c₂

theorem context_of_step (h : m.step t = .more m') : expressionContext m' = contextBehind (some t) := by
  obtain ⟨frames, mode⟩ := m
  cases mode with
  | operand =>
    simp only [Machine.step] at h
    split at h
    case h_7 => cases h
    all_goals
      rename_i ht
      cases h
      simp only [contextBehind, ht]
      rfl
  | opening f p =>
    simp only [Machine.step] at h
    split at h
    case h_1 ht =>
      cases h
      simp only [contextBehind, ht]
      rfl
    case h_2 => cases h
  | operator v =>
    simp only [Machine.step] at h
    split at h
    case h_1 ht =>
      split at h <;> cases h
      simp only [contextBehind, ht]
      rfl
    case h_2 => split at h <;> cases h
    case h_3 s _ _ ht =>
      split at h
      case h_1 op hop =>
        cases h
        cases Expr.operatorOf?_eq_some hop
        simp only [contextBehind, ht]
        cases op <;> rfl
      case h_2 => cases h
    case h_4 => cases h

/-- An expression ends in front of a comma or a closing parenthesis, if nothing waits for an operand there. -/
theorem step_eq_done : m.step t = .done e ↔
      (t.terminal = .symbol .comma ∨ t.terminal = .symbol .rightParen) ∧ m.finish? = some e := by
  obtain ⟨frames, mode⟩ := m
  cases mode with
  | operator v =>
    constructor
    · intro h
      simp only [Machine.step] at h
      split at h
      case h_1 ht =>
        split at h
        case h_1 hcollapse =>
          cases h
          simp [Machine.finish?, hcollapse, ht]
        case h_2 => cases h
      case h_2 ht =>
        split at h
        case h_1 hcollapse =>
          cases h
          simp [Machine.finish?, hcollapse, ht]
        case h_2 => cases h
      case h_3 => split at h <;> cases h
      case h_4 => cases h
    · rintro ⟨ht, h⟩
      simp only [Machine.finish?] at h
      split at h
      case h_1 hcollapse =>
        cases h
        rcases ht with ht | ht <;> simp only [Machine.step, ht, hcollapse]
      case h_2 => cases h
  | _ =>
    refine ⟨fun h => ?_, fun h => by cases h.2⟩
    simp only [Machine.step] at h
    split at h <;> cases h

/-- The end of the text is part of no expression. -/
theorem ne_finish_of_step (h : m.step t = .more m') : t.terminal ≠ .finish := by
  intro ht
  obtain ⟨frames, mode⟩ := m
  cases mode <;> simp only [Machine.step, ht, reduceCtorEq] at h

theorem resume_eq_ok {r : (Expr × Token) × Cursor} : resume n m c = .ok r ↔
      ∃ t c₁, c.next (expressionContext m) = .ok (t, c₁) ∧ expressionFrom n m t c₁ = .ok r := by
  refine (bind_eq_ok (x := c.next (expressionContext m)) (f := fun p => expressionFrom n m p.1 p.2)).trans ?_
  constructor
  · rintro ⟨p, h⟩
    exact ⟨p.1, p.2, h⟩
  · rintro ⟨t, c₁, h⟩
    exact ⟨(t, c₁), h⟩

variable {last : Option Token}

/-- The reader takes the tokens that the machine takes. -/
theorem exists_run_of_resume (hcontext : expressionContext m = contextBehind last)
    (h : resume n m c = .ok ((e, ending), c')) :
    ∃ ts m₁ c₁, Spells last c ts c₁ ∧ m.run? ts = some m₁ ∧ c₁.next (expressionContext m₁) = .ok (ending, c') ∧
      m₁.step ending = .done e := by
  induction n generalizing m last c with
  | zero =>
    obtain ⟨t, c₁, -, hfrom⟩ := resume_eq_ok.mp h
    cases hfrom
  | succ n ih =>
    obtain ⟨t, c₁, hnext, hfrom⟩ := resume_eq_ok.mp h
    rw [expressionFrom] at hfrom
    cases hstep : m.step t with
    | more m₁ =>
      rw [hstep] at hfrom
      obtain ⟨ts, m₂, c₂, hspells, hrun, hend, hdone⟩ := ih (context_of_step hstep) hfrom
      refine ⟨t :: ts, m₂, c₂, .cons (hcontext ▸ hnext) hspells, ?_, hend, hdone⟩
      rw [Expr.Machine.run?_cons hstep, hrun]
    | done e' =>
      rw [hstep] at hfrom
      cases hfrom
      exact ⟨[], m, c, .nil, rfl, hnext, hstep⟩
    | unexpected =>
      rw [hstep] at hfrom
      cases hfrom

/-- The rounds are enough, since no token is empty. -/
theorem resume_of_run {m₁ : Machine} {c₁ : Cursor}
    (hcontext : expressionContext m = contextBehind last) (hspells : Spells last c ts c₁) (hrun : m.run? ts = some m₁)
    (hend : c₁.next (expressionContext m₁) = .ok (ending, c')) (hdone : m₁.step ending = .done e)
    (hn : c.rest.length < n) : resume n m c = .ok ((e, ending), c') := by
  induction hspells generalizing m n with
  | nil =>
    cases hrun
    obtain ⟨n, rfl⟩ : ∃ k, n = k + 1 := ⟨n - 1, by omega⟩
    refine resume_eq_ok.mpr ⟨_, _, hend, ?_⟩
    rw [expressionFrom, hdone]
    rfl
  | cons hnext hrest ih =>
    rw [Expr.Machine.run?] at hrun
    split at hrun
    case h_1 m' hstep =>
      have hlength := Cursor.next_length_lt hnext (ne_finish_of_step hstep)
      obtain ⟨n, rfl⟩ : ∃ k, n = k + 1 := ⟨n - 1, by omega⟩
      refine resume_eq_ok.mpr ⟨_, _, hcontext ▸ hnext, ?_⟩
      rw [expressionFrom, hstep]
      exact ih (context_of_step hstep) hrun hend (by omega)
    case h_2 => cases hrun

theorem expression_eq_ok : expression c = .ok ((e, ending), c') ↔
      ∃ ts c₁, Spells none c ts c₁ ∧ c₁.next .operator = .ok (ending, c') ∧
        (ending.terminal = .symbol .comma ∨ ending.terminal = .symbol .rightParen) ∧ Expr.ofTokens? ts = some e := by
  have hresume : expression c = resume (c.rest.length + 1) .start c := rfl
  have hcontext : expressionContext .start = contextBehind none := rfl
  rw [hresume]
  constructor
  · intro h
    obtain ⟨ts, m, c₁, hspells, hrun, hend, hdone⟩ := exists_run_of_resume hcontext h
    obtain ⟨hterminal, hfinish⟩ := step_eq_done.mp hdone
    refine ⟨ts, c₁, hspells, ?_, hterminal, by rw [Expr.ofTokens?, hrun]; exact hfinish⟩
    obtain ⟨frames, mode⟩ := m
    cases mode with
    | operator v => exact hend
    | _ => cases hfinish
  · rintro ⟨ts, c₁, hspells, hend, hterminal, hread⟩
    obtain ⟨m, hrun, hfinish⟩ := Option.bind_eq_some_iff.mp hread
    refine resume_of_run hcontext hspells hrun ?_ (step_eq_done.mpr ⟨hterminal, hfinish⟩) (Nat.lt_succ_self _)
    obtain ⟨frames, mode⟩ := m
    cases mode with
    | operator v => exact hend
    | _ => cases hfinish

end Source.Reader

namespace Expr

open Source (Reader)
open Source.Reader (Spells)

/-- Expressions are read by the grammar. Tokens are read as a tree exactly if they have a derivation with that tree,
and no tokens have two derivations; a text is read as an expression exactly if it is cut into such tokens in front of
a comma or a closing parenthesis. Hence sums and products associate to the left, powers associate to the right and
bind tighter than a minus sign to their left, and a minus sign may follow any operator. -/
theorem reads_by_grammar :
    (∀ (ts : List Token) (t : Tree), IsReadAs ts t ↔ ∃ d : Derivation .sum, d.tokens = ts ∧ d.tree = t) ∧
    (∀ c : Category, Function.Injective (@Derivation.tokens c)) ∧
    (∀ (c c' : Cursor) (ending : Token) (t : Tree),
      (∃ e, Reader.expression c = .ok ((e, ending), c') ∧ e.toTree = t) ↔
        ∃ c₁, ∃ d : Derivation .sum, Spells none c d.tokens c₁ ∧ d.tree = t ∧ c₁.next .operator = .ok (ending, c') ∧
          (ending.terminal = .symbol .comma ∨ ending.terminal = .symbol .rightParen)) ∧
    (∀ (op op' : Operator) (c next : Category), Joins op c next → Joins op' c next →
      ∀ (x : Derivation c) (s : Leaf (.symbol op.mark)) (y : Derivation next) (s' : Leaf (.symbol op'.mark))
        (z : Derivation next), IsReadAs (x.tokens ++ s.token :: y.tokens ++ s'.token :: z.tokens)
          (.node op'.label (some x.start) [.node op.label (some x.start) [x.tree, y.tree], z.tree])) ∧
    (∀ (x : Derivation .atom) (s : Leaf (.symbol .caret)) (y : Derivation .atom) (s' : Leaf (.symbol .caret))
      (z : Derivation .unary), IsReadAs (x.tokens ++ s.token :: (y.tokens ++ s'.token :: z.tokens))
        (.node "pow" (some x.start) [x.tree, .node "pow" (some y.start) [y.tree, z.tree]])) ∧
    (∀ (m : Leaf (.symbol .minus)) (x : Derivation .atom) (s : Leaf (.symbol .caret)) (y : Derivation .unary),
      IsReadAs (m.token :: (x.tokens ++ s.token :: y.tokens))
        (.node "neg" (some m.token.position) [.node "pow" (some x.start) [x.tree, y.tree]])) ∧
    ∀ (op : Operator) (x : Derivation .atom) (s : Leaf (.symbol op.mark)) (m : Leaf (.symbol .minus))
      (y : Derivation .unary), IsReadAs (x.tokens ++ s.token :: m.token :: y.tokens)
        (.node op.label (some x.start) [x.tree, .node "neg" (some m.token.position) [y.tree]]) := by
  refine ⟨fun _ _ => isReadAs_iff, fun _ _ _ => Derivation.eq_of_tokens_eq, fun c c' ending t => ?_,
    fun op op' c next h h' x s y s' z => ?_, fun x s y s' z => ?_, fun m x s y => ?_, fun op x s m y => ?_⟩
  · simp only [Reader.expression_eq_ok, ofTokens?_eq_some]
    constructor
    · rintro ⟨_, ⟨_, c₁, hspells, hnext, hending, d, rfl, rfl⟩, rfl⟩
      exact ⟨c₁, d, hspells, d.toTree_expr.symm, hnext, hending⟩
    · rintro ⟨c₁, d, hspells, rfl, hnext, hending⟩
      exact ⟨d.expr, ⟨d.tokens, c₁, hspells, hnext, hending, d, rfl, rfl⟩, d.toTree_expr⟩
  · exact (Derivation.join h' (.join h x s y) s' z).isReadAs
  · exact (Derivation.pow x s (.single .unary (.pow y s' z))).isReadAs
  · exact (Derivation.neg m (.single .unary (.pow x s y))).isReadAs
  · -- The operand to the right of any operator may be one with a sign.
    by_cases hpow : op = .pow
    · subst hpow
      exact (Derivation.pow x s (.neg m y)).isReadAs
    · obtain ⟨c, next, hjoins⟩ := exists_joins hpow
      obtain ⟨left, hleft, hleft'⟩ := x.exists_of_le c (by cases hjoins <;> decide)
      obtain ⟨right, hright, hright'⟩ := (Derivation.neg m y).exists_of_le next (by cases hjoins <;> decide)
      have hread := (Derivation.join hjoins left s right).isReadAs
      have hstart : left.start = x.start := congrArg Operand.start hleft'
      rw [Derivation.tokens, Derivation.tree, hleft, hright, hstart, Derivation.tree_eq hleft',
        Derivation.tree_eq hright'] at hread
      exact hread

example (p q r s t : Position) :
    ofTokens? [⟨.symbol .minus, "-", p⟩, ⟨.name, "a", q⟩, ⟨.symbol .caret, "^", r⟩, ⟨.symbol .minus, "-", s⟩,
      ⟨.number, "2", t⟩] = some (.neg p (.binary q .pow (.param q "a") (.neg s (.number t "2")))) := rfl

end Expr

end QasmCircuit
