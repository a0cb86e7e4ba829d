import QasmCircuit.Circuit.Store
import QasmCircuit.Proofs.Outcome

/-!
# How steps end

A step on a store returns a value or fails, and leaves a store in both cases. `Ends` says what holds after it
either way, and the rules take a `do` block apart into its steps. A step that only looks at the store leaves
it as it is (`Reads`).

The rule for a sequence is an equivalence (`ends_bind`): what holds at the end of the second step has to hold
after the first one. So a proof goes along the block from its start, with the store as it is at each point. A
loop is proved by what each of its rounds keeps (`ends_forM`).
-/

namespace QasmCircuit

open List

def Store.circuit? (s : Store) (c : CircuitId) : Option Circuit := s.circuits[c]?

namespace Action

variable {α β : Type} {p : Problem}

/-- What a step comes to: a value or a fault, and the store that it leaves. -/
def outcome (a : Action α) (s : Store) : Except Fault α × Store := a.run.run s

/-- A step returns a value and leaves a store. -/
def Returns (a : Action α) (s : Store) (v : α) (t : Store) : Prop := a.outcome s = (.ok v, t)

/-- After a step the value and the store satisfy `Q`, or the fault and the store satisfy `E`. -/
def Ends (a : Action α) (s : Store) (Q : α → Store → Prop) (E : Fault → Store → Prop) : Prop :=
  match a.outcome s with
  | (.ok v, t) => Q v t
  | (.error e, t) => E e t

/-- A step succeeds, and the value and the store satisfy `Q`. -/
abbrev Attains (a : Action α) (s : Store) (Q : α → Store → Prop) : Prop := a.Ends s Q fun _ _ => False

/-- After a step that succeeds or fails the store satisfies `P`. -/
abbrev Leaves (a : Action α) (s : Store) (P : Store → Prop) : Prop := a.Ends s (fun _ => P) fun _ => P

section

variable {s : Store} {Q Q' : α → Store → Prop} {R : β → Store → Prop} {E E' : Fault → Store → Prop} {v : α}
  {a : Action α} {f : α → Action β} {t : Store} {i : InstructionId} {c : CircuitId}

theorem ends_pure : (pure v : Action α).Ends s Q E ↔ Q v s := Iff.rfl

theorem ends_throw {e : Fault} : (throw e : Action α).Ends s Q E ↔ E e s := Iff.rfl

theorem ends_fail : (fail p : Action α).Ends s Q E ↔ E (Fault.of p) s := Iff.rfl

theorem outcome_bind : (a >>= f).outcome s = match a.outcome s with
    | (.ok v, t) => (f v).outcome t
    | (.error e, t) => (.error e, t) := by
  unfold outcome
  rw [ExceptT.run_bind, StateT.run_bind]
  rcases a.run.run s with ⟨x, t⟩
  cases x <;> rfl

theorem ends_bind : (a >>= f).Ends s R E ↔ a.Ends s (fun v t => (f v).Ends t R E) E := by
  unfold Ends
  rw [outcome_bind]
  rcases a.outcome s with ⟨x, t⟩
  cases x <;> exact Iff.rfl

theorem ends_ite {c : Prop} [Decidable c] {b : Action α} (ha : c → a.Ends s Q E) (hb : ¬ c → b.Ends s Q E) :
    (if c then a else b).Ends s Q E := by
  split
  · next h => exact ha h
  · next h => exact hb h

theorem ends_tryCatch {f : Fault → Action α} : (tryCatch a f).Ends s Q E ↔ a.Ends s Q fun e t => (f e).Ends t Q E := by
  have hcatch : (tryCatch a f).outcome s = match a.outcome s with
      | (.ok v, t) => (.ok v, t)
      | (.error e, t) => (f e).outcome t := by
    unfold outcome
    rw [ExceptT.run_tryCatch, StateT.run_bind]
    rcases a.run.run s with ⟨x, t⟩
    cases x <;> rfl
  unfold Ends
  rw [hcatch]
  rcases a.outcome s with ⟨x, t⟩
  cases x <;> exact Iff.rfl

theorem ends_modify {f : Store → Store} {Q : PUnit → Store → Prop} :
    (modify f : Action PUnit).Ends s Q E ↔ Q () (f s) := Iff.rfl

theorem ends_modifyGet {f : Store → α × Store} : (modifyGet f : Action α).Ends s Q E ↔ Q (f s).1 (f s).2 := Iff.rfl

theorem ends_get {Q : Store → Store → Prop} : (get : Action Store).Ends s Q E ↔ Q s s := Iff.rfl

theorem ends_depth {Q : Nat → Store → Prop} : depth.Ends s Q E ↔ Q (s.instructions.size + 1) s := Iff.rfl

theorem Ends.imp (h : a.Ends s Q E) (hQ : ∀ v t, Q v t → Q' v t) (hE : ∀ e t, E e t → E' e t) : a.Ends s Q' E' := by
  revert h
  unfold Ends
  rcases a.outcome s with ⟨x, t⟩
  cases x with
  | ok v => exact hQ v t
  | error e => exact hE e t

theorem Ends.map (h : a.Ends s Q E) (hQ : ∀ v t, Q v t → Q' v t) : a.Ends s Q' E := h.imp hQ fun _ _ h => h

theorem Attains.ends (h : a.Attains s Q) (hQ : ∀ v t, Q v t → Q' v t) : a.Ends s Q' E := h.imp hQ fun _ _ => False.elim

theorem Leaves.mono {P P' : Store → Prop} (h : a.Leaves s P) (hP : ∀ t, P t → P' t) : a.Leaves s P' :=
  Ends.imp h (fun _ => hP) fun _ => hP

theorem Ends.and (h : a.Ends s Q E) (h' : a.Ends s Q' E') :
    a.Ends s (fun v t => Q v t ∧ Q' v t) fun e t => E e t ∧ E' e t := by
  revert h h'
  unfold Ends
  rcases a.outcome s with ⟨x, t⟩
  cases x with
  | ok v => exact And.intro
  | error e => exact And.intro

theorem Ends.forall {ι : Type} {Q : ι → α → Store → Prop} {E : ι → Fault → Store → Prop}
    (h : ∀ c, a.Ends s (Q c) (E c)) :
    a.Ends s (fun v t => ∀ c, Q c v t) fun e t => ∀ c, E c e t := by
  revert h
  unfold Ends
  rcases a.outcome s with ⟨x, t⟩
  cases x with
  | ok v => exact id
  | error e => exact id

theorem Ends.bind (ha : a.Ends s Q E) (hf : ∀ v t, Q v t → (f v).Ends t R E) : (a >>= f).Ends s R E :=
  ends_bind.mpr (ha.map hf)

/-- A step that cannot fail returns something. -/
theorem Ends.returns (h : a.Attains s Q) : ∃ v t, a.Returns s v t ∧ Q v t := by
  unfold Attains Ends at h
  rcases hr : a.outcome s with ⟨x, t⟩
  rw [hr] at h
  cases x with
  | ok v => exact ⟨v, t, hr, h⟩
  | error e => exact h.elim

theorem returns_of_toOption (h : (a.outcome s).1.toOption = some v) : a.Returns s v (a.outcome s).2 := by
  refine Prod.ext ?_ rfl
  revert h
  cases (a.outcome s).1 with
  | ok w => exact fun h => congrArg Except.ok (Option.some.inj h)
  | error e => exact fun h => by cases h

theorem Returns.ends (h : a.Returns s v t) : a.Ends s Q E ↔ Q v t := by
  unfold Ends
  rw [h]

theorem Returns.bind {w : β} {u : Store} (ha : a.Returns s v t) (hf : (f v).Returns t w u) :
    (a >>= f).Returns s w u := by
  rw [Returns, outcome_bind, ha]
  exact hf

theorem Returns.ends_bind (h : a.Returns s v t) : (a >>= f).Ends s R E ↔ (f v).Ends t R E := by
  rw [Action.ends_bind, h.ends]

theorem ends_lift {x : Except Fault α} (hQ : ∀ v, x = .ok v → Q v s) (hE : ∀ e, x = .error e → E e s) :
    (lift x).Ends s Q E := by
  cases x with
  | ok v => exact hQ v rfl
  | error e => exact hE e rfl

theorem returns_lift (s : Store) {x : Except Fault α} (h : x = .ok v) : (lift x).Returns s v s := by
  rw [h]
  rfl

theorem ends_instruction {Q : Instruction → Store → Prop}
    (hQ : ∀ x, s.instruction? i = some x → Q x s) (hE : ∀ e, E e s) : (instruction i).Ends s Q E := by
  refine ends_bind.mpr (ends_get.mpr ?_)
  split
  · next x hx => exact hQ x hx
  · exact hE _

theorem ends_circuit {Q : Circuit → Store → Prop}
    (hQ : ∀ x, s.circuit? c = some x → Q x s) (hE : ∀ e, E e s) : (circuit c).Ends s Q E := by
  refine ends_bind.mpr (ends_get.mpr ?_)
  split
  · next x hx => exact hQ x hx
  · exact hE _

/-- What is there is given. -/
theorem ends_instruction_of_some {x : Instruction} {Q : Instruction → Store → Prop}
    (hx : s.instruction? i = some x) : (instruction i).Ends s Q E ↔ Q x s := by
  rw [instruction, ends_bind, ends_get, hx]
  exact ends_pure

theorem ends_circuit_of_some {x : Circuit} {Q : Circuit → Store → Prop}
    (hx : s.circuit? c = some x) : (circuit c).Ends s Q E ↔ Q x s := by
  rw [Store.circuit?] at hx
  rw [circuit, ends_bind, ends_get, hx]
  exact ends_pure

theorem returns_instruction {x : Instruction} (hx : s.instruction? i = some x) : (instruction i).Returns s x s := by
  obtain ⟨v, t, h, rfl, rfl⟩ := ((@ends_instruction_of_some s (fun _ _ => False) i x (fun v t => v = x ∧ t = s) hx).mpr
    ⟨rfl, rfl⟩).returns
  exact h

theorem returns_circuit {x : Circuit} (hx : s.circuit? c = some x) : (circuit c).Returns s x s := by
  obtain ⟨v, t, h, rfl, rfl⟩ := ((@ends_circuit_of_some s (fun _ _ => False) c x (fun v t => v = x ∧ t = s) hx).mpr
    ⟨rfl, rfl⟩).returns
  exact h

end

/-! ## Loops -/

section

variable {γ : Type} {E : Fault → Store → Prop} {f : γ → Action PUnit} {as : List γ} {s : Store}

theorem forM_cons {a : γ} : (a :: as).forM f = f a >>= fun _ => as.forM f := rfl

/-- What every round of a loop keeps, the loop keeps. -/
theorem ends_forM {I : Store → Prop} (h : ∀ a ∈ as, ∀ s, I s → (f a).Ends s (fun _ t => I t) E) (hs : I s) :
    (as.forM f).Ends s (fun _ t => I t) E := by
  induction as generalizing s with
  | nil => exact hs
  | cons a as ih =>
    rw [forall_mem_cons] at h
    exact (h.1 s hs).bind fun _ t ht => ih h.2 ht

/-- A loop that collects results, with an invariant of what was done and what was collected. -/
theorem ends_mapM {f : γ → Action β} {I : List γ → List β → Store → Prop} {todo : List γ}
    (h : ∀ done a rest bs s, todo = done ++ a :: rest → I done bs s → (f a).Ends s
      (fun b t => I (done ++ [a]) (bs ++ [b]) t) E)
    (hs : I [] [] s) : (todo.mapM f).Ends s (fun bs t => I todo bs t) E := by
  have hrun : ∀ rest done bs s, todo = done ++ rest → I done bs s →
      (rest.mapM f).Ends s (fun more t => I todo (bs ++ more) t) E := by
    intro rest
    induction rest with
    | nil =>
      intro done bs s hsplit hi
      rw [append_nil] at hsplit
      rw [mapM_nil, ends_pure, append_nil, hsplit]
      exact hi
    | cons a rest ih =>
      intro done bs s hsplit hi
      rw [mapM_cons]
      refine (h done a rest bs s hsplit hi).bind fun b t ht => ?_
      refine (ih (done ++ [a]) (bs ++ [b]) t (by rw [hsplit, append_assoc]; rfl) ht).bind fun more u hu => ?_
      rw [ends_pure, append_cons]
      exact hu
  exact (hrun todo [] [] s rfl hs).map fun _ _ hi => hi

theorem returns_forM (h : ∀ a ∈ as, (f a).Returns s () s) : (as.forM f).Returns s () s := by
  induction as with
  | nil => rfl
  | cons a as ih =>
    rw [forall_mem_cons] at h
    exact h.1.bind (ih h.2)

theorem returns_filterM {f : γ → Action Bool} {p : γ → Bool} (h : ∀ a ∈ as, (f a).Returns s (p a) s) :
    (as.filterM f).Returns s (as.filter p) s := by
  have hrun : ∀ acc, (List.filterAuxM f as acc).Returns s ((as.filter p).reverse ++ acc) s := by
    induction as with
    | nil => exact fun acc => rfl
    | cons a as ih =>
      intro acc
      rw [forall_mem_cons] at h
      refine h.1.bind ?_
      cases hp : p a with
      | true =>
        rw [filter_cons_of_pos hp, reverse_cons, append_assoc]
        exact ih h.2 (a :: acc)
      | false =>
        rw [filter_cons_of_neg (by rw [hp]; exact Bool.false_ne_true)]
        exact ih h.2 acc
  refine (hrun []).bind ?_
  rw [append_nil, reverse_reverse]
  rfl

end

/-! ## Steps that only look -/

/-- A step that leaves the store as it is, and whose value satisfies `P` if it returns one. -/
def Reads (a : Action α) (s : Store) (P : α → Prop) : Prop :=
  a.Ends s (fun v t => t = s ∧ P v) fun _ t => t = s

section

variable {s : Store} {P P' : α → Prop} {R : β → Prop} {a : Action α} {γ : Type} {as : List γ} {f : α → Action β}

theorem reads_pure {v : α} (h : P v) : (pure v : Action α).Reads s P := ⟨rfl, h⟩

theorem reads_throw {e : Fault} : (throw e : Action α).Reads s P := by
  show s = s
  rfl

theorem reads_fail : (fail p : Action α).Reads s P := reads_throw

theorem reads_fail_bind {f : β → Action α} : (fail p >>= f).Reads s P :=
  ends_bind.mpr (ends_fail.mpr rfl)

theorem reads_ite {c : Prop} [Decidable c] {b : Action α} (ha : c → a.Reads s P) (hb : ¬ c → b.Reads s P) :
    (if c then a else b).Reads s P :=
  ends_ite ha hb

theorem reads_lift {x : Except Fault α} : (lift x).Reads s fun v => x = .ok v :=
  ends_lift (fun _ h => ⟨rfl, h⟩) fun _ _ => rfl

theorem reads_instruction {i : InstructionId} : (instruction i).Reads s fun x => s.instruction? i = some x :=
  ends_instruction (fun _ h => ⟨rfl, h⟩) fun _ => rfl

theorem reads_circuit {c : CircuitId} : (circuit c).Reads s fun x => s.circuit? c = some x :=
  ends_circuit (fun _ h => ⟨rfl, h⟩) fun _ => rfl

theorem reads_depth : depth.Reads s fun n => n = s.instructions.size + 1 := ⟨rfl, rfl⟩

theorem Reads.imp (h : a.Reads s P) (hP : ∀ v, P v → P' v) : a.Reads s P' :=
  Ends.map h fun v _ hv => ⟨hv.1, hP v hv.2⟩

theorem Reads.cases (h : a.Reads s P) :
    (∃ v, a.Returns s v s ∧ P v) ∨ ∃ e, a.outcome s = (.error e, s) := by
  unfold Reads Ends at h
  split at h
  · next v t ht => exact .inl ⟨v, h.1 ▸ ht, h.2⟩
  · next e t ht => exact .inr ⟨e, h ▸ ht⟩

theorem Reads.bind (ha : a.Reads s P) (hf : ∀ v, P v → (f v).Reads s R) : (a >>= f).Reads s R := by
  refine Ends.bind ha ?_
  rintro v t ⟨rfl, hv⟩
  exact hf v hv

theorem Reads.ends_bind {Q : β → Store → Prop} {E : Fault → Store → Prop} (ha : a.Reads s P)
    (hE : ∀ e, E e s) (hf : ∀ v, P v → (f v).Ends s Q E) : (a >>= f).Ends s Q E := by
  refine Action.ends_bind.mpr (Ends.imp ha ?_ ?_)
  · rintro v t ⟨rfl, hv⟩
    exact hf v hv
  · rintro e t rfl
    exact hE e

theorem Reads.forM {f : γ → Action PUnit} {P : γ → Prop} (h : ∀ a ∈ as, (f a).Reads s fun _ => P a) :
    (as.forM f).Reads s fun _ => ∀ a ∈ as, P a := by
  induction as with
  | nil => exact reads_pure (forall_mem_nil _)
  | cons a as ih =>
    rw [forall_mem_cons] at h
    exact h.1.bind fun _ ha => (ih h.2).imp fun _ has => forall_mem_cons.mpr ⟨ha, has⟩

theorem Reads.filterM {f : γ → Action Bool} {p : γ → Bool} (h : ∀ a ∈ as, (f a).Reads s fun b => b = p a) :
    (as.filterM f).Reads s fun bs => bs = as.filter p := by
  have hrun : ∀ acc, (List.filterAuxM f as acc).Reads s fun bs => bs = (as.filter p).reverse ++ acc := by
    induction as with
    | nil => exact fun acc => reads_pure rfl
    | cons a as ih =>
      intro acc
      rw [forall_mem_cons] at h
      refine h.1.bind fun b hb => ?_
      subst hb
      refine (ih h.2 _).imp fun bs hbs => ?_
      cases hp : p a with
      | true =>
        rw [hp] at hbs
        rw [hbs, filter_cons_of_pos hp, reverse_cons, append_assoc]
        rfl
      | false =>
        rw [hp] at hbs
        rw [hbs, filter_cons_of_neg (by rw [hp]; exact Bool.false_ne_true)]
        rfl
  refine (hrun []).bind fun bs hbs => reads_pure ?_
  rw [hbs, append_nil, reverse_reverse]

theorem Reads.mapM {f : γ → Action β} {R : γ → β → Prop} (h : ∀ a ∈ as, (f a).Reads s (R a)) :
    (as.mapM f).Reads s (Forall₂ R as) := by
  induction as with
  | nil => exact reads_pure .nil
  | cons a as ih =>
    rw [forall_mem_cons] at h
    rw [mapM_cons]
    exact h.1.bind fun b hb => (ih h.2).bind fun bs hbs => reads_pure (.cons hb hbs)

end

end Action

end QasmCircuit
