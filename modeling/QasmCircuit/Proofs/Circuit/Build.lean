import QasmCircuit.Circuit.Helper
import QasmCircuit.Proofs.Circuit.Sound

/-!
# Building keeps stores sound

`Safe` is what all building steps have in common: whether they return or fail, they leave a sound store, and
the store has only grown. The checks before attachment are what makes it so (`reads_checkInstruction`).
-/

namespace QasmCircuit

open Outcome List

variable {α : Type} {libs : Set Library} {lost loose : Set InstructionId} {s : Store} {r : Register}
  {k : Container} {p : Problem} {gate : String} {rs : List Register}

/-! ## Safe steps -/

namespace Action

variable {β γ : Type} {Q Q' : α → Store → Prop} {R : β → Store → Prop} {a : Action α} {f : α → Action β}

/-- A step that leaves a sound store which has only grown. If it returns a value, that one satisfies `Q`. -/
def Safe (libs : Set Library) (lost loose : Set InstructionId) (a : Action α) (s : Store) (Q : α → Store → Prop) :
    Prop :=
  a.Ends s (fun v t => t.Orderly libs lost loose ∧ s.Grows loose t ∧ Q v t)
    fun _ t => t.Orderly libs lost loose ∧ s.Grows loose t

section

variable (hs : s.Orderly libs lost loose)

include hs

theorem safe_pure {v : α} (h : Q v s) : (pure v : Action α).Safe libs lost loose s Q := ⟨hs, .refl s, h⟩

theorem safe_throw {e : Fault} : (throw e : Action α).Safe libs lost loose s Q :=
  ⟨hs, .refl s⟩

theorem safe_fail : (fail p : Action α).Safe libs lost loose s Q :=
  safe_throw hs

end

theorem Safe.imp (h : a.Safe libs lost loose s Q) (hQ : ∀ v t, Q v t → Q' v t) : a.Safe libs lost loose s Q' :=
  Ends.map h fun v t ht => ⟨ht.1, ht.2.1, hQ v t ht.2.2⟩

theorem Safe.bind (ha : a.Safe libs lost loose s Q)
    (hf : ∀ v t, t.Orderly libs lost loose → s.Grows loose t → Q v t → (f v).Safe libs lost loose t R) :
    (a >>= f).Safe libs lost loose s R := by
  refine ends_bind.mpr (Ends.map ha ?_)
  rintro v t ⟨ht, hst, hv⟩
  refine Ends.imp (hf v t ht hst hv) ?_ ?_
  · rintro w u ⟨hu, htu, hw⟩
    exact ⟨hu, hst.trans htu, hw⟩
  · rintro e u ⟨hu, htu⟩
    exact ⟨hu, hst.trans htu⟩

theorem Reads.safe_bind {P : α → Prop} (ha : a.Reads s P) (hs : s.Orderly libs lost loose)
    (hf : ∀ v, P v → (f v).Safe libs lost loose s R) : (a >>= f).Safe libs lost loose s R := by
  refine Action.ends_bind.mpr (Ends.imp ha ?_ ?_)
  · rintro v t ⟨rfl, hv⟩
    exact hf v hv
  · rintro e t rfl
    exact ⟨hs, .refl t⟩

theorem safe_fail_bind (hs : s.Orderly libs lost loose) : (fail p >>= f).Safe libs lost loose s R :=
  ends_bind.mpr (ends_fail.mpr ⟨hs, .refl s⟩)

theorem safe_ite {c : Prop} [Decidable c] {b : Action α} (ha : c → a.Safe libs lost loose s Q)
    (hb : ¬ c → b.Safe libs lost loose s Q) : (if c then a else b).Safe libs lost loose s Q :=
  ends_ite ha hb

theorem safe_forM {f : γ → Action PUnit} {as : List γ} (hs : s.Orderly libs lost loose)
    (h : ∀ a ∈ as, ∀ t, t.Orderly libs lost loose → s.Grows loose t → (f a).Safe libs lost loose t fun _ _ => True) :
    (as.forM f).Safe libs lost loose s fun _ _ => True := by
  induction as generalizing s with
  | nil => exact safe_pure hs trivial
  | cons a as ih =>
    rw [forall_mem_cons] at h
    refine (h.1 s hs (.refl s)).bind fun _ t ht hst _ => ih ht fun b hb u hu htu => ?_
    exact h.2 b hb u hu (hst.trans htu)

/-- A loop whose results stay good while the store grows. -/
theorem safe_mapM {f : γ → Action β} {as : List γ} {P : γ → β → Store → Prop} (hs : s.Orderly libs lost loose)
    (hP : ∀ a b t u, P a b t → t.Grows loose u → P a b u)
    (h : ∀ a ∈ as, ∀ t, t.Orderly libs lost loose → s.Grows loose t → (f a).Safe libs lost loose t (P a)) :
    (as.mapM f).Safe libs lost loose s fun bs t => Forall₂ (fun a b => P a b t) as bs := by
  induction as generalizing s with
  | nil => exact safe_pure hs .nil
  | cons a as ih =>
    rw [forall_mem_cons] at h
    rw [mapM_cons]
    refine (h.1 s hs (.refl s)).bind fun b t ht hst hb => ?_
    have hrest := ih ht fun c hc u hu htu => h.2 c hc u hu (hst.trans htu)
    refine hrest.bind fun bs u hu htu hbs => safe_pure hu (.cons (hP a b t u hb htu) hbs)

end Action

/-! ## Checks -/

theorem asModifier_eq_ok {wrap : ResolutionProblem → ModifierProblem} {x : Except Fault α} {v : α} :
    asModifier wrap x = .ok v ↔ x = .ok v := by
  unfold asModifier
  split
  · exact ⟨fun h => (nomatch h), fun h => (nomatch h)⟩
  · exact Iff.rfl

namespace Circuit

variable {c : Circuit}

theorem mem_of_register? {name : String} (h : c.register? name = some r) : r ∈ c.registers ∧ r.name = name :=
  ⟨mem_of_find?_eq_some h, beq_iff_eq.mp (@find?_some _ (fun r : Register => r.name == name) r _ h)⟩

theorem mem_of_hasRegister (h : c.hasRegister r) : r ∈ c.registers :=
  (mem_of_register? (beq_iff_eq.mp h)).1

theorem checkQuantum_ok (h : c.checkQuantum (.register r) = .ok ()) : r ∈ c.registers ∧ r.kind = .quantum := by
  unfold checkQuantum at h
  dsimp only at h
  split at h
  · next hr =>
    rw [Bool.and_eq_true] at hr
    exact ⟨mem_of_hasRegister hr.2, beq_iff_eq.mp hr.1⟩
  · exact nomatch h

theorem checkClassical_ok (h : c.checkClassical (.register r) = .ok ()) : r ∈ c.registers ∧ r.kind = .classical := by
  unfold checkClassical at h
  dsimp only at h
  split at h
  · next hr =>
    rw [Bool.and_eq_true] at hr
    exact ⟨mem_of_hasRegister hr.2, beq_iff_eq.mp hr.1⟩
  · exact nomatch h

theorem checkBit_ok {kind : RegisterKind} {label : String} {b : Bit}
    (h : c.checkBit kind label (.bit b) = .ok ()) : b.IsIn c.registers kind := by
  unfold checkBit at h
  dsimp only at h
  split at h
  · exact nomatch h
  · next r hr =>
    obtain ⟨hmem, hname⟩ := mem_of_register? hr
    split at h
    · exact nomatch h
    · next hkind =>
      rw [Bool.or_eq_true, not_or, decide_eq_true_eq, decide_eq_true_eq, not_not, not_not] at hkind
      split at h
      · next hindex => exact ⟨hkind.2, r, hmem, hname, hkind.1, hindex⟩
      · exact nomatch h

theorem checkCondition_ok {register value : Argument} {new : Condition}
    (h : c.checkCondition register value = .ok new) : register = .register new.1 ∧ value = .datum (.int new.2) ∧
      new.1 ∈ c.registers ∧ new.1.kind = .classical ∧ new.1.fits new.2 := by
  unfold checkCondition at h
  split at h
  · next r =>
    split at h
    · obtain ⟨_, hr, hvalue⟩ := bind_eq_ok.mp h
      obtain ⟨hmem, hkind⟩ := checkClassical_ok hr
      split at hvalue
      · next n =>
        split at hvalue
        · next hfits =>
          cases hvalue
          exact ⟨rfl, rfl, hmem, hkind, hfits⟩
        · exact nomatch hvalue
      · exact nomatch hvalue
    · exact nomatch h
  · exact nomatch h

end Circuit

/-- The circuit that a container belongs to. -/
def Container.IsIn (s : Store) (home : CircuitId) : Container → Prop
  | .circuit c => c = home
  | .gate i => ∃ x, s.instruction? i = some x ∧ x.circuit = home

variable {t : Store}

theorem Container.IsIn.eq {c d : CircuitId} (hc : k.IsIn s c) (hd : k.IsIn s d) : c = d := by
  cases k with
  | circuit e => exact hc.symm.trans hd
  | gate i =>
    obtain ⟨x, hx, hxc⟩ := hc
    obtain ⟨y, hy, hyd⟩ := hd
    rw [← hxc, ← hyd, Option.some.inj (hx.symm.trans hy)]

theorem Container.IsIn.mono {c : CircuitId} (h : k.IsIn s c) (hst : s.Grows loose t) : k.IsIn t c := by
  cases k with
  | circuit d => exact h
  | gate i =>
    obtain ⟨x, hx, hc⟩ := h
    obtain ⟨y, hy, hxy, -⟩ := hst.instructions i x hx
    exact ⟨y, hy, hxy.circuit.trans hc⟩

/-- A container takes an instruction: a circuit takes any, a gate only what acts on its arguments. -/
def Container.Takes (s : Store) (x : Instruction) : Container → Prop
  | .circuit _ => True
  | .gate i => ∃ g, s.instruction? i = some g ∧ x.isMeasure = false ∧ ∀ b ∈ x.args, b.among g.args

theorem Container.Takes.mono {x : Instruction} (h : k.Takes s x) (hst : s.Grows loose t) : k.Takes t x := by
  cases k with
  | circuit d => trivial
  | gate i =>
    obtain ⟨g, hg, hmeasure, hargs⟩ := h
    obtain ⟨y, hy, hgy, -⟩ := hst.instructions i g hg
    refine ⟨y, hy, hmeasure, ?_⟩
    rw [hgy.args]
    exact hargs

theorem Container.Takes.congr {x y : Instruction} (h : k.Takes s x) (hxy : x.Alike y) : k.Takes s y := by
  cases k with
  | circuit d => trivial
  | gate i =>
    obtain ⟨g, hg, hmeasure, hargs⟩ := h
    refine ⟨g, hg, hxy.isMeasure.trans hmeasure, ?_⟩
    rw [hxy.args]
    exact hargs

/-- The instructions that an application results in. -/
def Applied.ids : Applied → List InstructionId
  | .single i => [i]
  | .group is => is

/-- A container that can be got at. -/
def Container.IsKept (lost : Set InstructionId) : Container → Prop
  | .circuit _ => True
  | .gate i => i ∉ lost

namespace Action

variable {x : Instruction} {home : CircuitId} {i : InstructionId} {name : String} {args regs : List Argument}
  {params : Except Fault (List Argument)}

theorem reads_circuitOf (k : Container) : (circuitOf k).Reads s fun home => k.IsIn s home := by
  cases k with
  | circuit c => exact reads_pure rfl
  | gate i => exact reads_instruction.bind fun x hx => reads_pure ⟨x, hx, rfl⟩

theorem reads_checkCondition (x : Instruction) (register value : Argument) :
    (checkCondition x register value).Reads s fun new => register = .register new.1 ∧
      value = .datum (.int new.2) ∧ ∃ c, s.circuit? x.circuit = some c ∧
      new.1 ∈ c.registers ∧ new.1.kind = .classical ∧ new.1.fits new.2 := by
  refine reads_circuit.bind fun c hc => reads_lift.imp fun new hnew => ?_
  obtain ⟨hregister, hvalue, hfacts⟩ := Circuit.checkCondition_ok (asModifier_eq_ok.mp hnew)
  exact ⟨hregister, hvalue, c, hc, hfacts⟩

theorem reads_checkQubit (k : Container) (b : Bit) : (checkQubit k b).Reads s fun _ =>
    (∃ home c, k.IsIn s home ∧ s.circuit? home = some c ∧ b.IsIn c.registers .quantum) ∧
      ∀ g y, k = .gate g → s.instruction? g = some y → b.among y.args := by
  refine (reads_circuitOf k).bind fun home hhome => reads_circuit.bind fun c hc => ?_
  refine reads_lift.bind fun _ hb => ?_
  have hfacts := (⟨home, c, hhome, hc, Circuit.checkBit_ok hb⟩ :
    ∃ home c, k.IsIn s home ∧ s.circuit? home = some c ∧ b.IsIn c.registers .quantum)
  cases k with
  | circuit _ => exact reads_pure ⟨hfacts, fun g y hg => by cases hg⟩
  | gate i =>
    refine reads_instruction.bind fun x hx => ?_
    split
    · next hamong =>
      refine reads_pure ⟨hfacts, fun g y hg hy => ?_⟩
      cases hg
      cases hx.symm.trans hy
      exact hamong
    · exact reads_fail

theorem reads_checkClbit (k : Container) (b : Bit) : (checkClbit k b).Reads s fun _ =>
    (∃ home c, k.IsIn s home ∧ s.circuit? home = some c ∧ b.IsIn c.registers .classical) ∧ ∀ g, k ≠ .gate g := by
  cases k with
  | circuit d =>
    exact reads_circuit.bind fun c hc => reads_lift.imp fun _ hb =>
      ⟨⟨d, c, rfl, hc, Circuit.checkBit_ok hb⟩, fun g hg => by cases hg⟩
  | gate i => exact reads_instruction.bind fun x _ => reads_fail

/-- A gate takes an instruction whose qubits are arguments of the gate, if it has no classical bits. A measurement has
one of them. -/
theorem takes_of_splitArgs (hhome : k.IsIn s home) (hmeasure : x.operation = .measure → x.args.length = 2)
    (hqubits : ∀ b ∈ x.splitArgs.1, ∀ g y, k = .gate g → s.instruction? g = some y → b.among y.args)
    (hclbits : ∀ b ∈ x.splitArgs.2, ∀ g, k ≠ .gate g) : k.Takes s x := by
  cases k with
  | circuit d => trivial
  | gate g =>
    obtain ⟨y, hy, -⟩ := hhome
    refine ⟨y, hy, ?_, ?_⟩
    · cases hop : x.operation with
      | measure =>
        have hlength := hmeasure hop
        rw [Instruction.splitArgs, hop] at hclbits
        have hdrop : 0 < (x.args.drop 1).length := by
          rw [length_drop, hlength]
          decide
        exact absurd rfl (hclbits _ (getElem_mem hdrop) g)
      | _ => rw [Instruction.isMeasure, hop]
    · intro b hb
      rw [Instruction.splitArgs_eq] at hqubits hclbits
      split at hqubits
      · rw [← take_append_drop 1 x.args] at hb
        rcases mem_append.mp hb with hb | hb
        · exact hqubits b hb g y rfl hy
        · next hm => exact absurd rfl ((if_pos hm ▸ hclbits) b hb g)
      · exact hqubits b hb g y rfl hy

/-- The checks before attachment: the instruction belongs to the circuit of the container and fits there, and the
container takes it. -/
theorem reads_checkInstruction (k : Container) (x : Instruction) :
    (checkInstruction k x).Reads s fun _ => k.IsIn s x.circuit ∧ s.Fits x ∧
      ((x.operation = .measure → x.args.length = 2) → k.Takes s x) := by
  refine (reads_circuitOf k).bind fun home hhome => reads_circuit.bind fun c hc => ?_
  refine reads_ite (fun _ => reads_circuit.bind fun _ _ => reads_fail_bind) fun hcircuit => ?_
  obtain rfl : x.circuit = home := not_not.mp hcircuit
  have hunique : ∀ {home d}, k.IsIn s home → s.circuit? home = some d → d = c := fun hd hd' =>
    Option.some.inj (hd'.symm.trans ((hd.eq hhome) ▸ hc))
  refine (Reads.forM fun b _ => reads_checkQubit k b).bind fun _ hqubits => ?_
  refine (Reads.forM fun b _ => reads_checkClbit k b).bind fun _ hclbits => ?_
  refine reads_ite (fun _ => reads_fail_bind) fun hdistinct => ?_
  refine (Reads.forM fun r _ => reads_lift.imp fun _ hr =>
    Circuit.checkQuantum_ok (asModifier_eq_ok.mp hr)).bind fun _ hcontrols => ?_
  have hown : (checkOwnCondition x).Reads s fun _ => ∀ r v, x.condition = some (r, v) →
      r ∈ c.registers ∧ r.kind = .classical ∧ r.fits v := by
    unfold checkOwnCondition
    split
    · next hnone => exact reads_pure fun r v h => (nomatch hnone.symm.trans h)
    · next r v hsome =>
      refine (reads_checkCondition x _ _).bind fun new hnew => reads_pure fun r' v' hsome' => ?_
      obtain ⟨hregister, hvalue, d, hd, hfacts⟩ := hnew
      cases hsome.symm.trans hsome'
      cases hregister
      cases hvalue
      cases hd.symm.trans hc
      exact hfacts
  refine hown.imp fun _ hcondition => ⟨hhome, ⟨c, hc, ?_, ?_, ?_, ?_, hcondition⟩, fun hmeasure =>
    takes_of_splitArgs hhome hmeasure (fun b hb => (hqubits b hb).2) fun b hb => (hclbits b hb).2⟩
  · intro b hb
    obtain ⟨home, d, hd, hd', hin⟩ := (hqubits b hb).1
    exact hunique hd hd' ▸ hin
  · intro b hb
    obtain ⟨home, d, hd, hd', hin⟩ := (hclbits b hb).1
    exact hunique hd hd' ▸ hin
  · have hfalse : ¬ (!Bit.distinct (x.controlBits ++ x.splitArgs.1)) := hdistinct
    simpa using hfalse
  · exact hcontrols

/-! ## Attachment -/

section

variable (hs : s.Orderly libs lost loose)

include hs

theorem safe_create (hx : s.Formed libs x) (hbody : ∀ j ∈ x.inside, s.Part lost loose x j) :
    (create x).Safe libs lost loose s fun i t => i = s.instructions.size ∧ t = s.push x :=
  ⟨hs.push hx hbody, .push s x, rfl, rfl⟩

theorem safe_note {text : String} :
    (note text).Safe libs lost loose s fun _ t => t.instructions = s.instructions ∧ t.circuits = s.circuits :=
  ⟨hs.of_eq rfl rfl, .of_eq rfl rfl, rfl, rfl⟩

theorem safe_put {y : Instruction} (hx : s.instruction? i = some x) (hxy : x.Alike y)
    (hfits : i ∉ loose → s.Fits x → s.Fits y) (hy : s.Formed libs y) (hbody : ∀ j ∈ y.inside, s.Part lost loose y j) :
    (put i y).Safe libs lost loose s fun _ t => t = s.put i y :=
  ⟨hs.put hx hxy hfits hy hbody, .put hx hxy hfits, rfl⟩

end

theorem reads_nameOf (k : Container) : (nameOf k).Reads s fun _ => True := by
  cases k with
  | circuit c => exact reads_circuit.bind fun _ _ => reads_pure trivial
  | gate i => exact reads_instruction.bind fun _ _ => reads_pure trivial

theorem safe_putCircuit {c : CircuitId} {x y : Circuit} (hs : s.Orderly libs lost loose)
    (hx : s.circuit? c = some x) (hregisters : x.registers ⊆ y.registers) (hlibrary : y.library = x.library)
    (hnames : (y.registers.map Register.name).Nodup) (hshort : ∀ r ∈ y.registers, Text.isShort r.size)
    (hdata : ∀ i ∈ y.data, s.Member lost loose c i) :
    (putCircuit c y).Safe libs lost loose s fun _ t => t = s.putCircuit c y :=
  ⟨hs.putCircuit hx hregisters hlibrary hnames hshort hdata, .putCircuit hx hregisters hlibrary, rfl⟩

variable {g : InstructionId} {bits : List Bit}

/-- A gate whose body is changed stays what it was. -/
theorem safe_putBody {body : List InstructionId} {inverted : Bool} (hs : s.Orderly libs lost loose)
    (hkept : g ∉ lost) (hx : s.instruction? g = some x) (hop : x.operation = .composite name body inverted)
    (body' : List InstructionId) (inverted' : Bool) (hbody : ∀ j ∈ body', s.Part lost loose x j) :
    (put g { x with operation := .composite name body' inverted' }).Safe libs lost loose s fun _ _ => True := by
  have halike := Instruction.alike_composite hop name body' inverted'
  exact (safe_put hs hx halike (fun _ hfits => hfits.congr rfl halike.splitArgs rfl rfl)
    ((hs.formed g x hkept hx).putBody hop body' inverted')
    fun j hj => (hbody j hj).congr rfl rfl).imp fun _ _ _ => trivial

/-- A container accepts an instruction: it may be a member of the circuit, and the container takes it. -/
structure Accepts (lost loose : Set InstructionId) (s : Store) (k : Container) (i : InstructionId) : Prop where
  member : ∃ home, k.IsIn s home ∧ s.Member lost loose home i
  takes : ∃ x, s.instruction? i = some x ∧ k.Takes s x

theorem Accepts.mono (h : Accepts lost loose s k i) (hst : s.Grows loose t) : Accepts lost loose t k i := by
  obtain ⟨⟨home, hhome, hmember⟩, x, hx, htakes⟩ := h
  obtain ⟨y, hy, hxy, -⟩ := hst.instructions i x hx
  exact ⟨⟨home, hhome.mono hst, hmember.mono hst⟩, y, hy, (htakes.mono hst).congr hxy⟩

/-- What a gate accepts may stand in its body. -/
theorem Accepts.part (h : Accepts lost loose s (.gate g) i) (hx : s.instruction? g = some x) :
    s.Part lost loose x i := by
  obtain ⟨⟨home, ⟨z, hz, hhome⟩, hmember⟩, y, hy, w, hw, htakes⟩ := h
  cases hz.symm.trans hx
  cases hw.symm.trans hx
  exact ⟨hhome ▸ hmember, y, hy, htakes⟩

theorem safe_append (hs : s.Orderly libs lost loose) (hkept : k.IsKept lost) (hi : Accepts lost loose s k i) :
    (append k i).Safe libs lost loose s fun _ _ => True := by
  cases k with
  | circuit c =>
    obtain ⟨home, hhome, hmember⟩ := hi.member
    cases hhome
    refine reads_circuit.safe_bind hs fun x hx => ?_
    exact (safe_putCircuit (y := { x with data := x.data ++ [i] }) hs hx (List.Subset.refl _) rfl
      (hs.names _ x hx) (hs.short _ x hx) (forall_mem_concat (hs.data _ x hx) hmember)).imp fun _ _ _ => trivial
  | gate g =>
    refine reads_instruction.safe_bind hs fun x hx => ?_
    split
    · next name body inverted hop =>
      exact safe_putBody hs hkept hx hop (body ++ [i]) inverted (forall_mem_concat (hs.part hkept hx hop) (hi.part hx))
    · exact safe_throw hs

theorem safe_attachChecked (hs : s.Orderly libs lost loose) (hkept : k.IsKept lost) (hi : Accepts lost loose s k i) :
    (attachChecked k i).Safe libs lost loose s fun _ _ => True := by
  refine reads_instruction.safe_bind hs fun x _ => (reads_nameOf k).safe_bind hs fun name _ => ?_
  refine (safe_note hs).bind fun _ t ht hst _ => ?_
  exact safe_append ht hkept (hi.mono hst)

/-- A measurement has a qubit and a classical bit. -/
theorem length_of_formed (hx : s.Formed libs x) : x.operation = .measure → x.args.length = 2 := by
  intro hop
  have hproper := hx.isProper (by rw [Instruction.isAtomic, hop]) { families := [] }
  rw [Instruction.IsProper, hop] at hproper
  exact hproper.1

/-- Whatever is attached was checked. -/
theorem safe_attach (hs : s.Orderly libs lost loose) (hkept : k.IsKept lost) (hi : i ∉ lost) (hready : i ∉ loose) :
    (attach k i).Safe libs lost loose s fun _ _ => True := by
  refine reads_instruction.safe_bind hs fun x hx => ?_
  refine (reads_checkInstruction k x).safe_bind hs fun _ hchecked => ?_
  obtain ⟨hhome, hfits, htakes⟩ := hchecked
  exact safe_attachChecked hs hkept ⟨⟨_, hhome, hi, hready, x, hx, rfl, hfits⟩, x, hx,
    htakes (length_of_formed (hs.formed i x hi hx))⟩

/-! ## Applications -/

theorem length_of_row {index : Nat} (h : row index args = .ok bits) : bits.length = args.length :=
  (mapM_eq_ok.mp h).length_eq.symm

theorem length_of_broadcast {c : Circuit} {rows : List (List Bit)} (h : broadcast c name args = .ok rows) :
    ∀ bits ∈ rows, bits.length = args.length := by
  obtain ⟨_, -, hrows⟩ := bind_eq_ok.mp h
  intro bits hbits
  split at hrows
  · obtain ⟨only, honly, hpure⟩ := bind_eq_ok.mp hrows
    rw [← pure_eq_ok.mp hpure, mem_singleton] at hbits
    rw [hbits]
    exact length_of_row honly
  · obtain ⟨index, -, hrow⟩ := exists_of_forall₂ (mapM_eq_ok.mp hrows) bits hbits
    exact length_of_row hrow
  · exact nomatch hrows

theorem isFinite_of_finiteParam {a : Argument} {x : Float} (h : finiteParam gate a = .ok x) :
    x.isFinite := by
  unfold finiteParam at h
  split at h
  · next n =>
    rw [Datum.toReal] at h
    split at h
    · next y hy =>
      cases h
      exact Decimal.isFinite_of_ofInt? hy
    · exact nomatch h
  · split at h
    · next hx =>
      cases h
      exact hx
    · exact nomatch h
  · exact nomatch h

theorem checkParams_ok {f : Family} {params : List Argument} {values : List Float}
    (h : checkParams f params = .ok values) : values.length = f.params.length ∧ ∀ x ∈ values, x.isFinite := by
  unfold checkParams at h
  split at h
  · exact nomatch h
  · next hlength =>
    have hall := mapM_eq_ok.mp h
    refine ⟨hall.length_eq.symm.trans (not_not.mp hlength), fun x hx => ?_⟩
    obtain ⟨a, -, ha⟩ := exists_of_forall₂ hall x hx
    exact isFinite_of_finiteParam ha

theorem mem_of_applied {is : List InstructionId} : ∀ i ∈ (applied args is).ids, i ∈ is := by
  intro i hi
  unfold applied at hi
  split at hi
  · rw [Applied.ids, mem_singleton] at hi
    rw [hi]
    exact mem_cons_self
  · exact hi

section

variable (hs : s.Orderly libs lost loose)

include hs

/-- All rows are checked before the first one is attached. -/
theorem safe_attachAll {xs : List Instruction} (hkept : k.IsKept lost)
    (hxs : ∀ x ∈ xs, s.Formed libs x ∧ x.inside = []) :
    (attachAll k xs).Safe libs lost loose s fun is t => ∀ i ∈ is, t.Known lost i := by
  refine (Reads.forM fun x _ => reads_checkInstruction k x).safe_bind hs fun _ hchecked => ?_
  have hcreate : (xs.mapM create).Safe libs lost loose s fun is t =>
      Forall₂ (fun _ i => Accepts lost loose t k i) xs is := by
    refine safe_mapM hs (fun x i t u h htu => h.mono htu) ?_
    intro x hx t ht hst
    obtain ⟨hformed, hinside⟩ := hxs x hx
    obtain ⟨hhome, hfits, htakes⟩ := hchecked x hx
    have hsafe := safe_create ht (hformed.mono hst) (by rw [hinside]; exact forall_mem_nil _)
    refine hsafe.imp ?_
    rintro i u ⟨rfl, rfl⟩
    have hgrows : s.Grows loose (t.push x) := hst.trans (.push t x)
    exact ⟨⟨_, hhome.mono hgrows, ht.size_not_mem.1, ht.size_not_mem.2, x, t.instruction?_push_self x, rfl,
      hfits.mono hgrows⟩, x, t.instruction?_push_self x, (htakes (length_of_formed hformed)).mono hgrows⟩
  refine hcreate.bind fun is t ht hst his => ?_
  refine Safe.bind (safe_forM ht fun i hi u hu htu => ?_) fun _ u hu htu _ => safe_pure hu fun i hi => ?_
  · obtain ⟨x, -, haccepts⟩ := exists_of_forall₂ his i hi
    exact safe_attachChecked hu hkept (haccepts.mono htu)
  · obtain ⟨x, -, ⟨_, -, hmember⟩, -⟩ := exists_of_forall₂ his i hi
    exact hmember.known.mono htu

theorem safe_applyGate (hkept : k.IsKept lost) :
    (applyGate k name args params).Safe libs lost loose s fun v t => ∀ i ∈ v.ids, t.Known lost i := by
  refine (reads_circuitOf k).safe_bind hs fun home _ => reads_circuit.safe_bind hs fun c hc => ?_
  refine reads_lift.safe_bind hs fun f hf => reads_lift.safe_bind hs fun values hvalues => ?_
  refine safe_ite (fun _ => safe_fail_bind hs) fun harity => ?_
  refine reads_lift.safe_bind hs fun rows hrows => ?_
  rw [Library.lookup_eq_ok] at hf
  obtain ⟨ps, -, hparams⟩ := bind_eq_ok.mp hvalues
  obtain ⟨hlength, hfinite⟩ := checkParams_ok hparams
  refine Safe.bind (safe_attachAll hs hkept fun x hx => ?_) fun _ t ht _ his =>
    safe_pure ht fun i hi => his i (mem_of_applied i hi)
  obtain ⟨bits, hbits, rfl⟩ := mem_map.mp hx
  refine ⟨⟨fun lib hlib => ?_, fun _ _ => ⟨c, hc, Library.find?_name hf, fun _ => rfl⟩, fun _ _ => hfinite⟩, rfl⟩
  have hlibrary : c.library = lib := Set.mem_singleton_iff.mp ((hlib rfl).1 ▸ hs.libraries home c hc)
  refine ⟨Library.find?_name (hlibrary ▸ hf), hlength, hfinite, ?_, fun _ => rfl⟩
  rw [length_of_broadcast hrows bits hbits]
  exact not_not.mp harity

theorem safe_measure {qubit clbit : Argument} :
    (measure k qubit clbit).Safe libs lost loose s fun v t => ∀ i ∈ v.ids, t.Known lost i := by
  cases k with
  | gate i => exact reads_instruction.safe_bind hs fun x _ => safe_fail hs
  | circuit home =>
    refine reads_circuit.safe_bind hs fun c _ => reads_lift.safe_bind hs fun rows hrows => ?_
    refine Safe.bind (safe_attachAll hs trivial fun x hx => ?_) fun _ t ht _ his =>
      safe_pure ht fun i hi => his i (mem_of_applied i hi)
    obtain ⟨bits, hbits, rfl⟩ := mem_map.mp hx
    exact ⟨Store.formed_of_no_gate rfl fun _ => ⟨length_of_broadcast hrows bits hbits, rfl, rfl⟩, rfl⟩

theorem safe_barrier (hkept : k.IsKept lost) : (barrier k args).Safe libs lost loose s fun i t => t.Known lost i := by
  refine (reads_circuitOf k).safe_bind hs fun home _ => reads_circuit.safe_bind hs fun c _ => ?_
  have hrest : ∀ operands : List Argument, Safe libs lost loose (do
      let bits ← lift (gatherQubits c (fun shown => .semantic (.barrierOperandKind shown)) operands)
      if bits.isEmpty then fail (.semantic .emptyBarrier)
      let i ← create { operation := .barrier, args := bits, circuit := home }
      attach k i
      pure i) s fun i t => t.Known lost i := by
    intro operands
    refine reads_lift.safe_bind hs fun bits _ => safe_ite (fun _ => safe_fail_bind hs) fun hne => ?_
    have hformed : s.Formed libs { operation := .barrier, args := bits, circuit := home } :=
      Store.formed_of_no_gate rfl fun _ => ⟨fun h => hne (List.isEmpty_iff.mpr h), rfl, rfl, rfl⟩
    refine (safe_create hs hformed (forall_mem_nil _)).bind fun i t ht _ hi => ?_
    obtain ⟨rfl, rfl⟩ := hi
    refine (safe_attach ht hkept hs.size_not_mem.1 hs.size_not_mem.2).bind fun _ u hu htu _ => ?_
    exact safe_pure hu ((hs.known_push _).mono htu)
  refine safe_ite (fun _ => ?_) fun _ => hrest args
  refine Reads.safe_bind (P := fun _ => True) ?_ hs fun operands _ => hrest operands
  cases k with
  | circuit d => exact reads_circuit.bind fun _ _ => reads_pure trivial
  | gate i => exact reads_instruction.bind fun _ _ => reads_pure trivial

end

theorem ne_nil_of_gateArgs {c : Circuit} (h : gateArgs c name args = .ok bits) : bits ≠ [] := by
  obtain ⟨gathered, -, hrest⟩ := bind_eq_ok.mp h
  dsimp only at hrest
  split at hrest
  · exact nomatch hrest
  · next hne =>
    obtain ⟨_, -, hdistinct⟩ := bind_eq_ok.mp hrest
    split at hdistinct
    · exact nomatch hdistinct
    · rw [← pure_eq_ok.mp hdistinct]
      exact fun hnil => hne (List.isEmpty_iff.mpr hnil)

theorem isIdentifier_of_gateName {name : Argument} (h : gateName name = .ok gate) :
    isIdentifier gate ∧ name = .datum (.text gate) := by
  unfold gateName at h
  split at h
  · split at h
    · next hname =>
      cases h
      exact ⟨hname, rfl⟩
    · cases h
  · cases h

/-- A gate is new, or nothing has changed. -/
theorem ends_newComposite {name : Argument} : (newComposite home name args params).Ends s
      (fun i t => i = s.instructions.size ∧ ∃ x gate c, t = s.push x ∧ x.circuit = home ∧
        x.operation = .composite gate [] false ∧ x.args ≠ [] ∧ name = .datum (.text gate) ∧
        s.circuit? home = some c ∧ isIdentifier gate ∧ c.library.contains gate = false) fun _ t => t = s := by
  refine reads_circuit.ends_bind (fun _ => rfl) fun c hc => reads_lift.ends_bind (fun _ => rfl) fun gate hgate => ?_
  refine ends_ite (fun _ => ends_bind.mpr (ends_fail.mpr rfl)) fun hfree => ?_
  refine reads_lift.ends_bind (fun _ => rfl) fun bits hbits => ?_
  refine reads_lift.ends_bind (fun _ => rfl) fun values _ => ends_modifyGet.mpr ?_
  obtain ⟨hidentifier, hname⟩ := isIdentifier_of_gateName hgate
  exact ⟨rfl, _, gate, c, rfl, rfl, rfl, ne_nil_of_gateArgs hbits, hname, hc, hidentifier, Bool.eq_false_iff.mpr hfree⟩

theorem safe_newComposite {name : Argument} (hs : s.Orderly libs lost loose) :
    (newComposite home name args params).Safe libs lost loose s fun i t => t.Known lost i ∧ i ∉ loose := by
  refine ends_newComposite.imp ?_ ?_
  · rintro i t ⟨rfl, x, gate, c, rfl, rfl, hop, hargs, -, hc, hname, hfree⟩
    refine ⟨hs.push ?_ ?_, .push s x, hs.known_push x, hs.size_not_mem.2⟩
    · exact Store.formed_of_composite hop hargs hc hname hfree
    · rw [Instruction.inside, hop]
      exact forall_mem_nil _
  · rintro e t rfl
    exact ⟨hs, .refl t⟩

/-! ## Circuits -/

/-- Registers that are good for a circuit are the ones that were given, and have new names. -/
theorem check_ok {x : Circuit} {taken : List String} {new : List Register}
    (h : addRegisters.check x taken regs = .ok new) :
    regs = new.map .register ∧ (new.map Register.name).Nodup ∧ ∀ r ∈ new, r.name ∉ taken := by
  induction regs generalizing taken new with
  | nil =>
    cases h
    exact ⟨rfl, nodup_nil, forall_mem_nil _⟩
  | cons a rest ih =>
    cases a with
    | register r =>
      rw [addRegisters.check] at h
      split at h
      · exact nomatch h
      · next hfree =>
        obtain ⟨more, hmore, hpure⟩ := bind_eq_ok.mp h
        obtain ⟨rfl, hnodup, hnew⟩ := ih hmore
        rw [← pure_eq_ok.mp hpure, map_cons, map_cons, nodup_cons, forall_mem_cons]
        refine ⟨rfl, ⟨fun hmem => ?_, hnodup⟩, fun hmem => hfree (contains_iff_mem.mpr hmem), fun q hq hmem => ?_⟩
        · obtain ⟨q, hq, hname⟩ := mem_map.mp hmem
          exact hnew q hq (hname ▸ mem_cons_self)
        · exact hnew q hq (mem_cons_of_mem _ hmem)
    | _ => exact nomatch h

/-- A circuit has some registers behind those that it had, and nothing else is different. -/
def Declared (s : Store) (c : CircuitId) (x : Circuit) (rs : List Register) (t : Store) : Prop :=
  t.instructions = s.instructions ∧ t.circuits = (s.putCircuit c { x with registers := x.registers ++ rs }).circuits

theorem Declared.cons {c : CircuitId} {x : Circuit} {u : Store} (h : Declared s c x [r] t)
    (h' : Declared t c { x with registers := x.registers ++ [r] } rs u) : Declared s c x (r :: rs) u := by
  refine ⟨h'.1.trans h.1, h'.2.trans ?_⟩
  rw [Store.putCircuit, h.2, Store.putCircuit, Store.putCircuit, Array.setIfInBounds_setIfInBounds, append_assoc]
  rfl

section

variable {c : CircuitId} {x : Circuit} (hx : s.circuit? c = some x)

include hx

theorem Declared.refl : Declared s c x [] s := by
  refine ⟨rfl, Array.ext_getElem? fun d => ?_⟩
  have hput := Store.circuit?_putCircuit (y := { x with registers := x.registers ++ [] }) hx d
  rw [append_nil] at hput ⊢
  refine Eq.trans ?_ hput.symm
  split
  · next hd => exact hd ▸ hx
  · rfl

/-- A declaration stops at the first register whose size has too many digits. Those before it stay declared. -/
theorem ends_declareRegisters (rs : List Register) : (rs.forM (declareRegister c)).Ends s
    (fun _ t => (∀ r ∈ rs, Text.isShort r.size) ∧ Declared s c x rs t) fun e t => e = .defect .tooManyDigits ∧
      ∃ before r after, rs = before ++ r :: after ∧ (∀ q ∈ before, Text.isShort q.size) ∧
        Text.isShort r.size = false ∧ Declared s c x before t := by
  induction rs generalizing s x with
  | nil => exact ⟨forall_mem_nil _, .refl hx⟩
  | cons r rs ih =>
    refine ends_bind.mpr ((returns_circuit hx).ends_bind.mpr (ends_bind.mpr ?_))
    cases hshort : Text.isShort r.size with
    | false => exact ⟨rfl, [], r, rs, rfl, forall_mem_nil _, hshort, .refl hx⟩
    | true =>
      let t : Store := { s.putCircuit c { x with registers := x.registers ++ [r] } with
        notes := s!"Declaring {r.text} in {x.label}" :: s.notes }
      have ht : Declared s c x [r] t := ⟨rfl, rfl⟩
      have hxt : t.circuit? c = some { x with registers := x.registers ++ [r] } :=
        (Store.circuit?_putCircuit hx c).trans (if_pos rfl)
      refine (ih hxt).imp (fun _ u hu => ?_) ?_
      · exact ⟨forall_mem_cons.mpr ⟨hshort, hu.1⟩, ht.cons hu.2⟩
      · rintro e u ⟨he, before, q, after, rfl, hbefore, hq, hu⟩
        exact ⟨he, r :: before, q, after, rfl, forall_mem_cons.mpr ⟨hshort, hbefore⟩, hq, ht.cons hu⟩

end

/-- Registers are declared behind those that are there. If that fails, none of them is, unless the size of one has too
many digits. -/
theorem ends_addRegisters_any {c : CircuitId} : (addRegisters c regs).Ends s
    (fun _ t => ∃ x rs, s.circuit? c = some x ∧ addRegisters.check x (x.registers.map (·.name)) regs = .ok rs ∧
      (∀ r ∈ rs, Text.isShort r.size) ∧ Declared s c x rs t)
    fun e t => t = s ∨ e = .defect .tooManyDigits ∧ ∃ x before r after, s.circuit? c = some x ∧
      addRegisters.check x (x.registers.map (·.name)) regs = .ok (before ++ r :: after) ∧
      (∀ q ∈ before, Text.isShort q.size) ∧ Text.isShort r.size = false ∧ Declared s c x before t := by
  refine reads_circuit.ends_bind (fun _ => .inl rfl) fun x hx => ?_
  refine reads_lift.ends_bind (fun _ => .inl rfl) fun rs hrs => (ends_declareRegisters hx rs).imp ?_ ?_
  · exact fun _ t ht => ⟨x, rs, hx, hrs, ht⟩
  · rintro e t ⟨he, before, r, after, rfl, hrest⟩
    exact .inr ⟨he, x, before, r, after, hx, hrs, hrest⟩

section

variable (hs : s.Orderly libs lost loose)

include hs

theorem orderly_of_declared {c : CircuitId} {x : Circuit} (hx : s.circuit? c = some x)
    (hnodup : (rs.map Register.name).Nodup) (hfree : ∀ r ∈ rs, r.name ∉ x.registers.map (·.name))
    (hshort : ∀ r ∈ rs, Text.isShort r.size) (h : Declared s c x rs t) :
    t.Orderly libs lost loose ∧ s.Grows loose t := by
  have hgrows : s.Grows loose (s.putCircuit c { x with registers := x.registers ++ rs }) :=
    .putCircuit hx (subset_append_left _ _) rfl
  refine ⟨Store.Orderly.of_eq (hs.putCircuit (y := { x with registers := x.registers ++ rs }) hx
    (subset_append_left _ _) rfl ?_ ?_ (hs.data c x hx)) h.1 h.2, hgrows.trans (.of_eq h.1 h.2)⟩
  · rw [map_append, nodup_append]
    refine ⟨hs.names c x hx, hnodup, ?_⟩
    rintro name hname name' hname' rfl
    obtain ⟨r, hr, rfl⟩ := mem_map.mp hname'
    exact hfree r hr hname
  · exact forall_mem_append.mpr ⟨hs.short c x hx, hshort⟩

theorem safe_addRegisters {c : CircuitId} : (addRegisters c regs).Safe libs lost loose s fun _ _ => True := by
  refine ends_addRegisters_any.imp ?_ ?_
  · rintro _ t ⟨x, rs, hx, hrs, hshort, ht⟩
    obtain ⟨-, hnodup, hfree⟩ := check_ok hrs
    obtain ⟨ht, hst⟩ := orderly_of_declared hs hx hnodup hfree hshort ht
    exact ⟨ht, hst, trivial⟩
  · rintro e t (rfl | ⟨-, x, before, r, after, hx, hrs, hshort, -, ht⟩)
    · exact ⟨hs, .refl t⟩
    · obtain ⟨-, hnodup, hfree⟩ := check_ok hrs
      rw [map_append] at hnodup
      exact orderly_of_declared hs hx hnodup.of_append_left (fun q hq => hfree q (mem_append_left _ hq)) hshort ht

theorem safe_newCircuit {lib : Library} {name : Option Datum} (hlib : lib ∈ libs) :
    (newCircuit name lib regs).Safe libs lost loose s fun _ _ => True := by
  have hrest : ∀ (label : Datum) (t : Store), t.Orderly libs lost loose → Safe libs lost loose (do
      let c ← modifyGet fun s => (s.circuits.size, { s with circuits := s.circuits.push ⟨label, lib, [], []⟩ })
      addRegisters c regs
      pure c) t fun _ _ => True := by
    intro label t ht
    have hpush : (modifyGet fun s : Store =>
        (s.circuits.size, { s with circuits := s.circuits.push ⟨label, lib, [], []⟩ }) : Action CircuitId).Safe
          libs lost loose t fun _ _ => True :=
      ⟨ht.pushCircuit hlib rfl rfl, .pushCircuit t _, trivial⟩
    exact hpush.bind fun c u hu _ _ => (safe_addRegisters hu).bind fun _ v hv _ _ => safe_pure hv trivial
  cases name with
  | some label => exact hrest label s hs
  | none =>
    have hnumber : (modifyGet fun s : Store =>
        (Datum.text s!"circuit{s.numbered}", { s with numbered := s.numbered + 1 }) : Action Datum).Safe
          libs lost loose s fun _ _ => True :=
      ⟨hs.of_eq rfl rfl, .of_eq rfl rfl, trivial⟩
    exact hnumber.bind fun label t ht _ _ => hrest label t ht

theorem safe_callHelper (hkept : k.IsKept lost) :
    (callHelper k name args).Safe libs lost loose s fun v t => ∀ i ∈ v.ids, t.Known lost i := by
  unfold callHelper
  split
  · refine (safe_barrier hs hkept).bind fun i t ht _ hi => safe_pure ht fun j hj => ?_
    rw [mem_singleton.mp hj]
    exact hi
  · exact safe_measure hs
  · exact safe_throw hs
  · split
    · exact safe_throw hs
    · refine safe_ite (fun _ => ?_) fun _ => safe_applyGate hs hkept
      exact ends_bind.mpr (ends_throw.mpr ⟨hs, .refl s⟩)

end

end Action

end QasmCircuit
