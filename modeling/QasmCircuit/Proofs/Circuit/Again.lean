import QasmCircuit.Proofs.Circuit.Extend

/-!
# Gates that are applied again

A gate of a library that is applied again to a container gets its modifiers before it is attached; one that is applied
afresh is attached first (`Action.applyAnew`). Both ways ask for the same, but for one thing: only a fresh application
compares the numbers of operands and parameters with those of the family (`Store.Matches`), and the library of the
container may have another family under the name.

> `Action.applyAnew_iff_reapply`: a fresh application returns just where the gate is applied again and the numbers
> agree, and both leave the same store.
-/

namespace QasmCircuit

open Outcome List

variable {s t u : Store} {k : Container} {j i : InstructionId} {y x : Instruction} {home : CircuitId}
  {name : String} {n : Nat} {values : List Float}

/-! ## Attachments -/

namespace Store

variable {c : Circuit}

/-- An instruction with a name was attached to a container, and a note was taken. -/
def IsAttached (s : Store) (name : String) (j : InstructionId) (t : Store) : Container → Prop
  | .circuit c => ∃ d, s.circuit? c = some d ∧ t = { s.putCircuit c { d with data := d.data ++ [j] } with
      notes := s!"Attaching {name} to {d.label}" :: s.notes }
  | .gate g => ∃ z gate body inverted, s.instruction? g = some z ∧ z.operation = .composite gate body inverted ∧
      t = { s.put g { z with operation := .composite gate (body ++ [j]) inverted } with
        notes := s!"Attaching {name} to {z.name}" :: s.notes }

section

variable (h : s.IsAttached name j t k)

include h

/-- What is attached stays as it is. -/
theorem IsAttached.instruction?_self (hk : k ≠ .gate j) : t.instruction? j = s.instruction? j := by
  cases k with
  | circuit c =>
    obtain ⟨d, -, rfl⟩ := h
    rfl
  | gate g =>
    obtain ⟨z, gate, body, inverted, -, -, rfl⟩ := h
    exact s.instruction?_put_ne g j _ fun hg => hk (congrArg Container.gate hg)

/-- Circuits keep their registers and their library. -/
theorem IsAttached.circuit? (hc : s.circuit? home = some c) :
    ∃ d, t.circuit? home = some d ∧ d.registers = c.registers ∧ d.library = c.library := by
  cases k with
  | circuit c' =>
    obtain ⟨d, hd, rfl⟩ := h
    have hput := circuit?_putCircuit (y := { d with data := d.data ++ [j] }) hd home
    by_cases heq : home = c'
    · subst heq
      cases hc.symm.trans hd
      rw [if_pos rfl] at hput
      exact ⟨_, hput, rfl, rfl⟩
    · rw [if_neg heq] at hput
      exact ⟨c, hput.trans hc, rfl, rfl⟩
  | gate g =>
    obtain ⟨z, gate, body, inverted, -, -, rfl⟩ := h
    exact ⟨c, hc, rfl, rfl⟩

/-- It makes no difference for an attachment what the instruction is. -/
theorem IsAttached.put (hk : k ≠ .gate j) (y : Instruction) : (s.put j y).IsAttached name j (t.put j y) k := by
  cases k with
  | circuit c =>
    obtain ⟨d, hd, rfl⟩ := h
    exact ⟨d, hd, rfl⟩
  | gate g =>
    obtain ⟨z, gate, body, inverted, hz, hop, rfl⟩ := h
    have hgj : g ≠ j := fun hg => hk (congrArg Container.gate hg)
    refine ⟨z, gate, body, inverted, (s.instruction?_put_ne j g y hgj.symm).trans hz, hop, ?_⟩
    rw [Store.put, Store.put, Store.put, Store.put, Array.setIfInBounds_comm _ _ hgj]

end

/-- A gate that something can be attached to has a body. -/
theorem IsAttached.isComposite {g : InstructionId} {z : Instruction} (h : s.IsAttached name j t (.gate g))
    (hz : s.instruction? g = some z) : z.isComposite := by
  obtain ⟨z', gate, body, inverted, hz', hop, -⟩ := h
  cases hz.symm.trans hz'
  exact isComposite_iff.mpr ⟨gate, body, inverted, hop⟩

/-- A new instruction is no container yet. -/
theorem ne_new_of_isIn (hk : k.IsIn s home) : k ≠ .gate s.instructions.size := by
  rintro rfl
  obtain ⟨z, hz, -⟩ := hk
  exact Nat.lt_irrefl _ (instruction?_lt hz)

/-- Where a new instruction can be attached to a container, the container is a place for instructions. -/
theorem site_of_isAttached (hk : k.IsIn s home) (hc : s.circuit? home = some c)
    (hnames : (c.registers.map Register.name).Nodup) (h : (s.push y).IsAttached name j t k) :
    s.Site c.library c.registers home (fun b => ∀ g z, k = .gate g → s.instruction? g = some z → b.among z.args) k := by
  refine ⟨hnames, ⟨c, hc, rfl, rfl⟩, ?_⟩
  cases k with
  | circuit c' => exact hk
  | gate g =>
    obtain ⟨z, hz, hcircuit⟩ := hk
    exact ⟨z, hz, hcircuit, h.isComposite (instruction?_push_of_some hz), fun b hb => hb g z rfl hz⟩

end Store

namespace Action

variable {α β : Type} {c : Circuit} {f g : Family}

/-- A step that only looks has left the store as it was. -/
theorem Reads.of_returns {a : Action α} {P : α → Prop} {v : α} (h : a.Reads s P) (hv : a.Returns s v t) : t = s ∧ P v :=
  hv.ends.mp h

section

variable {a : Action α} {v : α} {f : α → Action β} {w : β}

theorem returns_bind_iff : (a >>= f).Returns s w u ↔ ∃ v t, a.Returns s v t ∧ (f v).Returns t w u := by
  constructor
  · intro h
    rw [Returns, outcome_bind] at h
    rcases ha : a.outcome s with ⟨v | v, t⟩
    · rw [ha] at h
      cases h
    · rw [ha] at h
      exact ⟨v, t, ha, h⟩
  · rintro ⟨v, t, ha, hf⟩
    exact ha.bind hf

theorem Returns.bind_iff (ha : a.Returns s v t) : (a >>= f).Returns s w u ↔ (f v).Returns t w u := by
  rw [Returns, outcome_bind, ha]
  rfl

theorem Returns.iff (ha : a.Returns s v u) {w : α} : a.Returns s w t ↔ w = v ∧ t = u := by
  rw [Returns, show a.outcome s = _ from ha, Prod.mk.injEq, Except.ok.injEq, eq_comm, @eq_comm _ u]

theorem returns_unit_bind_iff {a : Action Unit} {f : Unit → Action β} :
    (a >>= f).Returns s w u ↔ ∃ t, a.Returns s () t ∧ (f ()).Returns t w u := by
  rw [returns_bind_iff, Unique.exists_iff]

theorem returns_pure_iff {w : α} : (pure v : Action α).Returns s w t ↔ w = v ∧ t = s := Returns.iff rfl

theorem returns_forM_singleton {g : α → Action Unit} {b : α} : ([b].forM g).Returns s () t ↔ (g b).Returns s () t := by
  rw [forM_cons, returns_unit_bind_iff]
  refine ⟨?_, fun h => ⟨t, h, rfl⟩⟩
  rintro ⟨_, h, ⟨⟩⟩
  exact h

theorem returns_fail_bind_iff {c : Prop} [Decidable c] {e : Problem} {a : Action β} :
    (if c then fail e >>= fun _ : Unit => a else a).Returns s w u ↔ ¬ c ∧ a.Returns s w u := by
  split
  · next hc => exact iff_of_false (fun h => by cases h) fun h => h.1 hc
  · next hc => exact (and_iff_right hc).symm

/-- After a step that only looks comes a step with what it saw. -/
theorem Reads.bind_iff {P : α → Prop} (ha : a.Reads s P) (hP : ∀ v, P v → a.Returns s v s) :
    (a >>= f).Returns s w u ↔ ∃ v, P v ∧ (f v).Returns s w u := by
  rw [returns_bind_iff]
  constructor
  · rintro ⟨v, t, hv, hf⟩
    obtain ⟨rfl, hPv⟩ := ha.of_returns hv
    exact ⟨v, hPv, hf⟩
  · rintro ⟨v, hPv, hf⟩
    exact ⟨v, s, hP v hPv, hf⟩

theorem returns_circuit_bind_iff {f : Circuit → Action β} :
    (circuit home >>= f).Returns s w u ↔ ∃ c, s.circuit? home = some c ∧ (f c).Returns s w u :=
  reads_circuit.bind_iff fun _ => returns_circuit

theorem returns_lift_bind_iff {r : Except Fault α} :
    (lift r >>= f).Returns s w u ↔ ∃ v, r = .ok v ∧ (f v).Returns s w u :=
  reads_lift.bind_iff fun _ h => h ▸ rfl

theorem returns_circuitOf_bind_iff {f : CircuitId → Action β} :
    (circuitOf k >>= f).Returns s w u ↔ ∃ home, k.IsIn s home ∧ (f home).Returns s w u := by
  refine (reads_circuitOf k).bind_iff fun home hk => ?_
  cases k with
  | circuit c =>
    cases hk
    rfl
  | gate g =>
    obtain ⟨z, hz, rfl⟩ := hk
    exact (returns_instruction hz).bind rfl

end

theorem returns_attachChecked_iff (hy : s.instruction? j = some y) :
    (attachChecked k j).Returns s () t ↔ s.IsAttached y.name j t k := by
  rw [attachChecked, (returns_instruction hy).bind_iff]
  cases k with
  | circuit c =>
    rw [nameOf, bind_assoc, returns_circuit_bind_iff]
    refine exists_congr fun d => and_congr_right fun hd => ?_
    refine (Returns.iff ?_).trans (and_iff_right rfl)
    exact Returns.bind rfl (Returns.bind rfl (Returns.bind (returns_circuit hd) rfl))
  | gate g =>
    rw [nameOf, bind_assoc, reads_instruction.bind_iff fun _ => returns_instruction]
    refine exists_congr fun z => ?_
    constructor
    · rintro ⟨hz, h⟩
      rw [pure_bind, returns_unit_bind_iff] at h
      obtain ⟨_, ⟨⟩, h⟩ := h
      obtain ⟨z', hz', h⟩ := (reads_instruction.bind_iff fun _ => returns_instruction).mp h
      cases hz.symm.trans hz'
      split at h
      · next gate body inverted hop =>
        cases h
        exact ⟨gate, body, inverted, hz, hop, rfl⟩
      · cases h
    · rintro ⟨gate, body, inverted, hz, hop, rfl⟩
      refine ⟨hz, Returns.bind rfl (Returns.bind rfl (Returns.bind (returns_instruction hz) ?_))⟩
      rw [hop]
      rfl

/-! ## Modifiers -/

/-- The modifiers of an instruction can be given to a gate of a family on some operands. -/
structure Allows (c : Circuit) (g : Family) (args : List Bit) (x : Instruction) : Prop where
  family : x.controls = [] ∨ (c.library.controlledBy x.controlBits.length g).isSome
  controls : ∀ r ∈ x.controls, r ∈ c.registers ∧ r.kind = .quantum
  distinct : Bit.distinct args → Bit.distinct (x.controlBits ++ args)
  condition : ∀ r v, x.condition = some (r, v) → r ∈ c.registers ∧ r.kind = .classical ∧ r.fits v

section

variable (hy : s.instruction? j = some y)

include hy

section

variable (hc : s.circuit? y.circuit = some c)

include hc

/-- A gate of the library is controlled only if it takes the controls. -/
theorem ends_control_atomic (hop : y.operation = .atomic g) {regs : List Argument} :
    (control (n + 1) j regs).Ends s (fun _ t => ∃ new, TakesControls c regs y new ∧
        t = s.put j { y with controls := y.controls ++ new }) fun _ t => t = s := by
  refine (returns_instruction hy).ends_bind.mpr ?_
  rw [hop]
  refine (reads_checkControls (n + 1) j regs).ends_bind (fun _ => rfl) fun new hnew => ends_modify.mpr ?_
  obtain ⟨-, y', c', hy', hc', htakes⟩ := hnew
  cases hy.symm.trans hy'
  cases hc.symm.trans hc'
  exact ⟨new, htakes, rfl⟩

/-- A gate of the library is conditioned only on a register of the circuit that can hold the value. -/
theorem ends_condition_atomic (hop : y.operation = .atomic g) {r : Register} {v : Int} :
    (condition (n + 1) j (.register r) (.datum (.int v))).Ends s (fun _ t =>
        t = s.put j { y with condition := some (r, v) } ∧ r ∈ c.registers ∧ r.kind = .classical ∧ r.fits v)
      fun _ t => t = s := by
  refine (returns_instruction hy).ends_bind.mpr ?_
  rw [hop]
  refine (reads_checkCondition y _ _).ends_bind (fun _ => rfl) fun new hnew => ends_modify.mpr ?_
  obtain ⟨hregister, hvalue, d, hd, hfacts⟩ := hnew
  cases hregister
  cases hvalue
  cases hd.symm.trans hc
  exact ⟨rfl, hfacts⟩

/-- A gate of the library without modifiers gets those of an instruction only if they can be given to it. Whether it
does or not, nothing else is changed. -/
theorem ends_applyModifiers (hop : y.operation = .atomic g) (hnone : y.controls = [] ∧ y.condition = none) :
    (applyModifiers x j).Ends s (fun _ t => t = s.put j { y with controls := x.controls, condition := x.condition } ∧
        Allows c g y.args x)
      fun _ t => ∃ z, t = s.put j z := by
  have hput := s.instruction?_put j { y with controls := x.controls } (Store.instruction?_lt hy)
  have hbits : y.controlBits = [] := by
    rw [Instruction.controlBits, hnone.1]
    rfl
  -- Controls come first; where there are none, nothing is asked of the library.
  have hcontrolled : ∀ {m : Nat} {a : PUnit → Action Unit} {Q : Unit → Store → Prop},
      ((x.controls = [] ∨ (c.library.controlledBy x.controlBits.length g).isSome) →
        (∀ r ∈ x.controls, r ∈ c.registers ∧ r.kind = .quantum) →
        (Bit.distinct y.args → Bit.distinct (x.controlBits ++ y.args)) →
        (a ()).Ends (s.put j { y with controls := x.controls }) Q fun _ t => ∃ z, t = s.put j z) →
      (if (!x.controls.isEmpty) = true then control (m + 1) j (x.controls.map .register) >>= a else a ()).Ends s Q
        fun _ t => ∃ z, t = s.put j z := by
    intro m a Q ha
    refine ends_ite (fun _ => ?_) fun hempty => ?_
    · refine ends_bind.mpr ((ends_control_atomic hy hc hop).imp (fun _ t ht => ?_) fun _ t ht => ?_)
      · obtain ⟨new, ⟨hregisters, hfamily⟩, rfl⟩ := ht
        obtain ⟨hregs, hcontrols, hfresh⟩ := checkControlRegisters_ok hregisters
        cases map_injective_iff.mpr (fun _ _ => Argument.register.inj) hregs
        have hfamily := hfamily g hop
        rw [hbits, length_nil, Nat.zero_add, ← length_flatMap_bits] at hfamily
        rw [hbits, append_nil] at hfresh
        rw [hnone.1, nil_append]
        exact ha (.inr hfamily) hcontrols fun hdistinct =>
          Bit.distinct_iff.mpr (Bit.nodup_append_iff.mpr ⟨hfresh, Bit.distinct_iff.mp hdistinct⟩)
      · exact ⟨y, ht.trans (Store.put_of_some hy).symm⟩
    · have hnil : x.controls = [] := by
        rw [Bool.not_eq_true', Bool.not_eq_false] at hempty
        exact List.isEmpty_iff.mp hempty
      have hsame : { y with controls := x.controls } = y := by
        rw [hnil, ← hnone.1]
      rw [hsame, Store.put_of_some hy] at ha
      refine ha (.inl hnil) (fun r hr => ?_) fun hdistinct => ?_
      · rw [hnil] at hr
        exact absurd hr not_mem_nil
      · rw [Instruction.controlBits, hnil]
        exact hdistinct
  refine ends_bind.mpr (ends_depth.mpr (hcontrolled fun hfamily hcontrols hdistinct => ?_))
  cases hx : x.condition with
  | none =>
    refine ends_pure.mpr ⟨?_, hfamily, hcontrols, hdistinct, fun r v h => ?_⟩
    · rw [← hnone.2]
    · cases hx.symm.trans h
  | some p =>
    refine (ends_condition_atomic hput hc hop).imp (fun _ t ht => ?_) fun _ t ht => ⟨_, ht⟩
    obtain ⟨rfl, hfacts⟩ := ht
    refine ⟨s.put_put j _ _, hfamily, hcontrols, hdistinct, fun r v h => ?_⟩
    cases hx.symm.trans h
    exact hfacts

/-! ## Two ways to apply a gate -/

end

end

/-- Applies the gate that an instruction is afresh, and gives the new gate the modifiers of the instruction. -/
def applyAnew (x : Instruction) (k : Container) : Action Unit := do
  let v ← applyGate k x.name (x.args.map .bit) (.ok (Program.valueArguments x.params))
  v.ids.forM (applyModifiers x)

/-- A gate of the library is applied again: its modifiers come before its attachment. -/
theorem returns_reapply_iff (hx : s.instruction? i = some x) (hop : x.operation = .atomic f) :
    (reapply (n + 1) i k).Returns s j u ↔ ∃ home, k.IsIn s home ∧ ∃ c, s.circuit? home = some c ∧
      ∃ g, c.library.find? x.name = some g ∧
      ∃ t, (applyModifiers x s.instructions.size).Returns (s.push (.gate home g x.params x.args)) () t ∧
        (attach k s.instructions.size).Returns t () u ∧ j = s.instructions.size := by
  have hname : x.name = f.name := by rw [Instruction.name, hop]
  have hcreate : ∀ y, (create y).Returns s s.instructions.size (s.push y) := fun _ => rfl
  simp only [reapply, renew, bind_assoc, pure_bind, hop, hname, (returns_instruction hx).bind_iff, (hcreate _).bind_iff,
    returns_circuitOf_bind_iff, returns_circuit_bind_iff, returns_lift_bind_iff, Library.lookup_eq_ok,
    returns_unit_bind_iff, returns_pure_iff, exists_eq_right_right']
  rfl

/-- One instruction is checked, and then it is created and attached. -/
theorem returns_attachAll_singleton {is : List InstructionId} :
    (attachAll k [y]).Returns s is t ↔ is = [s.instructions.size] ∧ (checkInstruction k y).Returns s () s ∧
      (attachChecked k s.instructions.size).Returns (s.push y) () t := by
  have hcreate : ([y].mapM create).Returns s [s.instructions.size] (s.push y) := rfl
  rw [attachAll, returns_unit_bind_iff]
  constructor
  · rintro ⟨_, hcheck, h⟩
    rw [returns_forM_singleton] at hcheck
    obtain ⟨rfl, -⟩ := (reads_checkInstruction k y).of_returns hcheck
    rw [hcreate.bind_iff, returns_unit_bind_iff] at h
    obtain ⟨_, hattach, ⟨⟩⟩ := h
    exact ⟨rfl, hcheck, returns_forM_singleton.mp hattach⟩
  · rintro ⟨rfl, hcheck, hattach⟩
    exact ⟨s, returns_forM_singleton.mpr hcheck, hcreate.bind ((returns_forM_singleton.mpr hattach).bind rfl)⟩

theorem broadcast_bits (c : Circuit) (name : String) (bits : List Bit) :
    broadcast c name (bits.map .bit) = .ok [bits] := by
  have hcheck : (bits.map Argument.bit).forM (checkOperand c name) = .ok () := by
    refine forM_eq_ok.mpr fun a ha => ?_
    obtain ⟨b, -, rfl⟩ := mem_map.mp ha
    rfl
  have hnone : registerSizes (bits.map .bit) = [] := registerSizes_eq_nil.mpr fun r hr => by
    obtain ⟨b, -, hb⟩ := mem_map.mp hr
    cases hb
  have hrow : row 0 (bits.map .bit) = .ok bits := by
    rw [row, mapM_eq_ok, forall₂_map_left_iff, forall₂_same]
    exact fun b _ => rfl
  rw [broadcast, hcheck, hnone]
  exact bind_eq_ok.mpr ⟨(), rfl, bind_eq_ok.mpr ⟨bits, hrow, rfl⟩⟩

theorem applied_bits (bits : List Bit) (i : InstructionId) : applied (bits.map .bit) [i] = .single i := by
  have hnone : (bits.map Argument.bit).any Argument.isRegister = false := by simp [Argument.isRegister]
  unfold applied
  rw [hnone]

/-- Finite parameters are accepted just if the family takes as many. -/
theorem checkParams_eq_ok {values' : List Float} (hfinite : ∀ p ∈ values, p.isFinite) :
    checkParams g (Program.valueArguments values) = .ok values' ↔ values' = values ∧
    values.length = g.params.length := by
  have hlength : (Program.valueArguments values).length = values.length := length_map _
  rw [checkParams, hlength]
  rcases mapM_finiteParam g.name values with ⟨-, hvalues⟩ | ⟨-, p, hp, hinfinite, -⟩
  · split
    · next hne => exact iff_of_false (fun h => by cases h) fun h => hne h.2
    · next heq =>
      rw [hvalues, Except.ok.injEq, eq_comm]
      exact (and_iff_left (not_not.mp heq)).symm
  · rw [hfinite p hp] at hinfinite
    cases hinfinite

theorem returns_applyGate_bits_iff {bits : List Bit} {v : Applied}
    (hfinite : ∀ p ∈ values, p.isFinite) :
    (applyGate k name (bits.map .bit) (.ok (Program.valueArguments values))).Returns s v t ↔ ∃ home, k.IsIn s home ∧
      ∃ c, s.circuit? home = some c ∧ ∃ g, c.library.find? name = some g ∧ values.length = g.params.length ∧
      (bits.length : Int) = g.arity ∧ (checkInstruction k (.gate home g values bits)).Returns s () s ∧
      (attachChecked k s.instructions.size).Returns (s.push (.gate home g values bits)) () t ∧
      v = .single s.instructions.size := by
  simp only [applyGate, returns_circuitOf_bind_iff, returns_circuit_bind_iff, returns_lift_bind_iff,
    Library.lookup_eq_ok,
    bind_eq_ok, Except.ok.injEq, exists_eq_left', checkParams_eq_ok hfinite, and_assoc, exists_eq_left,
    returns_fail_bind_iff, length_map, ne_eq, not_not, broadcast_bits, map_cons, map_nil]
  simp only [returns_bind_iff, returns_attachAll_singleton, returns_pure_iff, and_assoc, exists_and_left,
    exists_eq_left,
    exists_eq_right_right', applied_bits]
  rfl

/-- A gate of the library is applied afresh: its modifiers come after its attachment. -/
theorem returns_applyAnew_iff (hfinite : ∀ p ∈ x.params, p.isFinite) :
    (applyAnew x k).Returns s () u ↔ ∃ home, k.IsIn s home ∧ ∃ c, s.circuit? home = some c ∧
      ∃ g, c.library.find? x.name = some g ∧ ((x.args.length : Int) = g.arity ∧ x.params.length = g.params.length) ∧
      (checkInstruction k (.gate home g x.params x.args)).Returns s () s ∧
      ∃ t, (attachChecked k s.instructions.size).Returns (s.push (.gate home g x.params x.args)) () t ∧
      (applyModifiers x s.instructions.size).Returns t () u := by
  simp only [applyAnew, returns_bind_iff, returns_applyGate_bits_iff hfinite]
  constructor
  · rintro ⟨_, t, ⟨home, hk, c, hc, g, hg, hparams, hargs, hcheck, hattach, rfl⟩, h⟩
    exact ⟨home, hk, c, hc, g, hg, ⟨hargs, hparams⟩, hcheck, t, hattach, returns_forM_singleton.mp h⟩
  · rintro ⟨home, hk, c, hc, g, hg, ⟨hargs, hparams⟩, hcheck, t, hattach, h⟩
    exact ⟨_, t, ⟨home, hk, c, hc, g, hg, hparams, hargs, hcheck, hattach, rfl⟩, returns_forM_singleton.mpr h⟩

end Action

/-- The circuit of a container has a family with the name of a gate, which takes the numbers of operands and of
parameters that the gate has. -/
def Store.Matches (s : Store) (k : Container) (x : Instruction) : Prop :=
  ∃ home c g, k.IsIn s home ∧ s.circuit? home = some c ∧ c.library.find? x.name = some g ∧
    (x.args.length : Int) = g.arity ∧ x.params.length = g.params.length

namespace Action

variable {libs : Set Library} {handed : List InstructionId} {c d : Circuit} {f g : Family} {args : List Bit}
  {params : List Float}

theorem Allows.congr (h : Allows d g args x) (hregisters : d.registers = c.registers)
    (hlibrary : d.library = c.library) : Allows c g args x :=
  ⟨hlibrary ▸ h.family, hregisters ▸ h.controls, h.distinct, hregisters ▸ h.condition⟩

/-- A gate that acts on the registers still does with modifiers that can be given to it. -/
theorem Allows.fits (h : Allows c g args x) (hfits : (Instruction.gate home g params args).Fits c.registers) :
    { Instruction.gate home g params args with controls := x.controls, condition := x.condition }.Fits c.registers :=
  ⟨hfits.qubits, hfits.clbits, h.distinct hfits.distinct, h.controls, h.condition⟩

/-- A gate that acts on the registers does so without its modifiers. -/
theorem fits_of_modified
    (hfits : { Instruction.gate home g params args with controls := x.controls, condition := x.condition }.Fits
      c.registers) : (Instruction.gate home g params args).Fits c.registers := by
  refine ⟨hfits.qubits, hfits.clbits, ?_, forall_mem_nil _, fun r v h => by cases h⟩
  have hdistinct := Bit.distinct_iff.mp hfits.distinct
  rw [map_append] at hdistinct
  exact Bit.distinct_iff.mpr hdistinct.of_append_right

theorem among_of_takes (htakes : k.Takes s y) :
    ∀ b ∈ y.args, ∀ g z, k = .gate g → s.instruction? g = some z → b.among z.args := by
  rintro b hb g z rfl hz
  obtain ⟨z', hz', -, hargs⟩ := htakes
  cases hz.symm.trans hz'
  exact hargs b hb

/-- What is applied afresh can be applied again. -/
theorem reapply_of_applyAnew (hx : s.instruction? i = some x) (hop : x.operation = .atomic f)
    (hfinite : ∀ p ∈ x.params, p.isFinite)
    (hnames : ∀ home c, s.circuit? home = some c → (c.registers.map Register.name).Nodup)
    (h : (applyAnew x k).Returns s () u) : (reapply (n + 1) i k).Returns s s.instructions.size u ∧ s.Matches k x := by
  obtain ⟨home, hk, c, hc, g, hg, hcounts, hcheck, t, hplaced, hmodifiers⟩ := (returns_applyAnew_iff hfinite).mp h
  refine ⟨(returns_reapply_iff hx hop).mpr ⟨home, hk, c, hc, g, hg, ?_⟩, home, c, g, hk, hc, hg, hcounts⟩
  have hnew := s.instruction?_push_self (.gate home g x.params x.args)
  have hattached := (returns_attachChecked_iff hnew).mp hplaced
  have hne := Store.ne_new_of_isIn hk
  -- The fresh gate got its modifiers where it stands.
  obtain ⟨d, hd, hregisters, hlibrary⟩ := hattached.circuit? (show (s.push _).circuit? home = some c from hc)
  obtain ⟨rfl, hallows⟩ := hmodifiers.ends.mp
    (ends_applyModifiers ((hattached.instruction?_self hne).trans hnew) hd rfl ⟨rfl, rfl⟩)
  obtain ⟨-, -, ⟨c', hc', hbare⟩, htakes⟩ := (reads_checkInstruction k _).of_returns hcheck
  cases hc.symm.trans hc'
  have hallows' := hallows.congr hregisters hlibrary
  have hfits := hallows'.fits hbare
  have hsite := Store.site_of_isAttached hk hc (hnames home c hc) hattached
  have hmodified := s.instruction?_push_self
    { Instruction.gate home g x.params x.args with controls := x.controls, condition := x.condition }
  refine ⟨_, s.put_push _ _ ▸ returns_applyModifiers hnew hc (hnames home c hc) rfl rfl ⟨rfl, rfl⟩ hfits
    (hallows'.family.imp_right fun h => ⟨g, rfl, h⟩), ?_, rfl⟩
  refine (returns_instruction hmodified).bind (Returns.bind (returns_checkInstruction
    (hsite.filled (.of_adds (s.adds_push _) (fun _ _ h => h) k)) rfl hfits ?_ (forall_mem_nil _)) ?_)
  · exact among_of_takes (htakes fun h => by cases h)
  · have hput := hattached.put hne
      { Instruction.gate home g x.params x.args with controls := x.controls, condition := x.condition }
    rw [s.put_push] at hput
    exact (returns_attachChecked_iff hmodified).mpr hput

/-- What is applied again can be applied afresh, if the numbers agree. -/
theorem applyAnew_of_reapply (hx : s.instruction? i = some x) (hop : x.operation = .atomic f)
    (hfinite : ∀ p ∈ x.params, p.isFinite)
    (hnames : ∀ home c, s.circuit? home = some c → (c.registers.map Register.name).Nodup)
    (h : (reapply (n + 1) i k).Returns s j u) (hmatches : s.Matches k x) : (applyAnew x k).Returns s () u := by
  obtain ⟨home, c, g, hk, hc, hg, hcounts⟩ := hmatches
  obtain ⟨home', hk', c', hc', g', hg', t, hmodifiers, hattach, rfl⟩ := (returns_reapply_iff hx hop).mp h
  cases hk.eq hk'
  cases hc.symm.trans hc'
  cases hg.symm.trans hg'
  have hbare := s.instruction?_push_self (.gate home g x.params x.args)
  have hne := Store.ne_new_of_isIn hk
  -- The gate had its modifiers when it was attached.
  obtain ⟨rfl, hallows⟩ := hmodifiers.ends.mp (ends_applyModifiers hbare hc rfl ⟨rfl, rfl⟩)
  rw [s.put_push] at hattach
  have hmodified := s.instruction?_push_self
    { Instruction.gate home g x.params x.args with controls := x.controls, condition := x.condition }
  obtain ⟨y, _, hread, hchecked⟩ := returns_bind_iff.mp hattach
  obtain ⟨rfl, hy⟩ := reads_instruction.of_returns hread
  cases hmodified.symm.trans hy
  obtain ⟨_, _, hcheck, hplaced⟩ := returns_bind_iff.mp hchecked
  obtain ⟨rfl, -, ⟨c', hc', hfits⟩, htakes⟩ := (reads_checkInstruction k _).of_returns hcheck
  cases hc.symm.trans hc'
  have hattached := (returns_attachChecked_iff hmodified).mp hplaced
  have hsite := Store.site_of_isAttached hk hc (hnames home c hc) hattached
  have hthere := (hattached.instruction?_self hne).trans hmodified
  obtain ⟨d, hd, hregisters, hlibrary⟩ := hattached.circuit? (show (s.push _).circuit? home = some c from hc)
  have hput := hattached.put hne (.gate home g x.params x.args)
  rw [s.put_push] at hput
  refine (returns_applyAnew_iff hfinite).mpr ⟨home, hk, c, hc, g, hg, hcounts, ?_, _,
    (returns_attachChecked_iff hbare).mpr hput, ?_⟩
  · refine returns_checkInstruction hsite rfl (fits_of_modified hfits) ?_ (forall_mem_nil _)
    exact fun b hb g z hg hz => among_of_takes (htakes fun h => by cases h) b hb g z hg
      (Store.instruction?_push_of_some hz)
  · have hreturns := returns_applyModifiers (u.instruction?_put s.instructions.size (.gate home g x.params x.args)
      (Store.instruction?_lt hthere)) hd (hregisters ▸ hnames home c hc) rfl rfl ⟨rfl, rfl⟩ (hregisters ▸ hfits)
      (hlibrary ▸ hallows.family.imp_right fun h => ⟨g, rfl, h⟩)
    rw [u.put_put, Store.put_of_some hthere] at hreturns
    exact hreturns

/-- An attachment that fails changes nothing. -/
theorem unchanged_attach : (attach k j).Ends s (fun _ _ => True) fun _ t => s.Unchanged t := by
  refine reads_instruction.ends_bind (fun _ => .refl s) fun y _ => ?_
  refine (reads_checkInstruction k y).ends_bind (fun _ => .refl s) fun _ _ => ?_
  refine reads_instruction.ends_bind (fun _ => .refl s) fun y _ => (reads_nameOf k).ends_bind
    (fun _ => .refl s) fun _ _ => ?_
  refine ends_bind.mpr (ends_modify.mpr ?_)
  have hnoted : ∀ notes : List String, s.Unchanged { s with notes } := fun _ => ⟨fun _ _ hz => hz, rfl⟩
  cases k with
  | circuit c => exact reads_circuit.ends_bind (fun _ => hnoted _) fun _ _ => ends_modify.mpr trivial
  | gate g =>
    refine reads_instruction.ends_bind (fun _ => hnoted _) fun z _ => ?_
    split
    · exact ends_modify.mpr trivial
    · exact ends_throw.mpr (hnoted _)

/-- What cannot be applied again leaves everything as it was. -/
theorem unchanged_reapply : (reapply (n + 1) i k).Ends s (fun _ _ => True) fun _ t => s.Unchanged t := by
  refine (reads_circuitOf k).ends_bind (fun _ => .refl s) fun home _ => ?_
  refine ends_bind.mpr ((unchanged_renew n i home).map fun j t hst => ?_)
  exact ends_bind.mpr (unchanged_attach.imp (fun _ _ _ => trivial) fun _ _ htu => hst.trans htu)

/-- With any libraries whose links fit, a gate of a library is applied afresh, operands, parameters and modifiers alike,
just where it is applied again and the family of its name takes the same numbers of operands and parameters; and then
both leave the same store. Where it cannot be applied again, nothing is attached. -/
theorem applyAnew_iff_reapply (hs : s.Arises libs handed) (hlibs : ∀ lib ∈ libs, lib.IsRegular)
    (hx : s.instruction? i = some x) (hop : x.operation = .atomic f) (n : Nat) (k : Container) :
    (∀ t, (applyAnew x k).Returns s () t ↔ (∃ j, (reapply (n + 1) i k).Returns s j t) ∧ s.Matches k x) ∧
      ∀ e t, (reapply (n + 1) i k).outcome s = (.error e, t) → s.Unchanged t := by
  obtain ⟨lost, horderly, -⟩ := hs.exists_orderly
  have hfinite := horderly.finite i x hx (by rw [Instruction.isAtomic, hop]) hlibs
  refine ⟨fun t => ⟨fun h => ?_, ?_⟩, fun e t ht => ?_⟩
  · obtain ⟨hreapply, hmatches⟩ := reapply_of_applyAnew (n := n) hx hop hfinite horderly.names h
    exact ⟨⟨_, hreapply⟩, hmatches⟩
  · rintro ⟨⟨j, h⟩, hmatches⟩
    exact applyAnew_of_reapply hx hop hfinite horderly.names h hmatches
  · have hends := unchanged_reapply (s := s) (i := i) (n := n) (k := k)
    rw [Ends, ht] at hends
    exact hends

end Action

/-! ## Two libraries -/

namespace Store

/-- The store after a call with a library, and what calls have handed out by then. -/
def nextWith (p : Store × List InstructionId) (k : Library × Call) : Store × List InstructionId := next k.1 p k.2

/-- Whether each of some calls with libraries names only what was handed out before it. -/
def namesHandedWith (p : Store × List InstructionId) : List (Library × Call) → Bool
  | [] => true
  | k :: rest => k.2.uses.all p.2.contains && namesHandedWith (nextWith p k) rest

/-- Calls that name only what was handed out before lead to a store that arises with their libraries. -/
theorem arises_foldl (libs : Set Library) (calls : List (Library × Call)) (hlibs : ∀ k ∈ calls, k.1 ∈ libs)
    (hcalls : namesHandedWith ({}, []) calls) :
    (calls.foldl nextWith ({}, [])).1.Arises libs (calls.foldl nextWith ({}, [])).2 := by
  suffices hrun : ∀ p : Store × List InstructionId, p.1.Arises libs p.2 → namesHandedWith p calls →
      (calls.foldl nextWith p).1.Arises libs (calls.foldl nextWith p).2 from hrun ({}, []) .start hcalls
  clear hcalls
  induction calls with
  | nil => exact fun p hp _ => hp
  | cons k rest ih =>
    intro p hp hcalls
    rw [forall_mem_cons] at hlibs
    rw [namesHandedWith, Bool.and_eq_true, all_eq_true] at hcalls
    refine ih hlibs.2 (nextWith p k) (hp.call hlibs.1 k.2 fun i hi => .handed ?_) hcalls.2
    exact contains_iff_mem.mp (hcalls.1 i hi)

end Store

/-- A library with one gate and the form of it with one control. -/
def Library.pair (name controlled : String) (arity : Int) : Library :=
  ⟨[⟨name, [], arity, name, [], some controlled⟩, ⟨controlled, [], arity + 1, controlled, [], none⟩]⟩

/-- What describes a library with one gate and the form of it with one control. -/
def Datum.pair (name controlled : String) (arity : Int) : Datum :=
  .mapping [(.text "families", .mapping [
    (.text name, .mapping [(.text "arity", .int arity), (.text "controlled", .text controlled)]),
    (.text controlled, .mapping [(.text "arity", .int (arity + 1))])])]

namespace Action

/-- A gate with a control and a condition in a circuit with the packaged library, and a circuit with another one. -/
def pairedCalls (lib : Library) : List (Library × Call) :=
  let q := Argument.register Bit.single.register
  let r := Argument.register .lead
  let c := Argument.register .flag
  [(.packaged, .newCircuit none [q, r, c]), (lib, .newCircuit none [c, r, q]),
    (.packaged, .applyGate (.circuit 0) "x" [.bit .single] (.ok [])), (.packaged, .control 0 [r]),
    (.packaged, .condition 0 c (.datum (.int 1)))]

/-- The store that the calls lead to, and what they hand out. -/
def paired (lib : Library) : Store × List InstructionId := (pairedCalls lib).foldl Store.nextWith ({}, [])

theorem arises_paired (lib : Library) (hcalls : Store.namesHandedWith ({}, []) (pairedCalls lib)) :
    (paired lib).1.Arises {.packaged, lib} (paired lib).2 :=
  Store.arises_foldl {.packaged, lib} (pairedCalls lib) (by simp [pairedCalls]) hcalls

theorem isRegular_paired (lib : Library) (d : Datum) (h : (Library.ofDatum d).toOption = some lib) :
    ∀ l ∈ ({.packaged, lib} : Set Library), l.IsRegular := by
  rintro l (rfl | rfl)
  · exact Library.isRegular_packaged
  · exact Library.isRegular_of_ofDatum (toOption_eq_some.mp h)

/-- The gate in the first circuit, and the second circuit. -/
theorem exists_paired (lib : Library)
    (hgate : ((paired lib).1.instruction? 0).any (fun x => x.isAtomic && x.name == "x" && x.controls == [.lead] &&
      x.args.length == 1 && x.params.length == 0))
    (hcircuit : ((paired lib).1.circuit? 1).map (fun c => (c.library, c.data)) = some (lib, [])) :
    ∃ x f c, (paired lib).1.instruction? 0 = some x ∧ x.operation = .atomic f ∧ x.name = "x" ∧ x.controls = [.lead] ∧
      x.args.length = 1 ∧ x.params = [] ∧ (paired lib).1.circuit? 1 = some c ∧ c.library = lib ∧ c.data = [] := by
  obtain ⟨x, hx, hfacts⟩ := (Option.any_eq_true _ _).mp hgate
  obtain ⟨c, hc, hlibrary⟩ := Option.map_eq_some_iff.mp hcircuit
  rw [Prod.mk.injEq] at hlibrary
  simp only [Bool.and_eq_true, beq_iff_eq, length_eq_zero_iff] at hfacts
  obtain ⟨⟨⟨⟨hatomic, hname⟩, hcontrols⟩, hargs⟩, hparams⟩ := hfacts
  rw [Instruction.isAtomic] at hatomic
  split at hatomic
  · next f hop => exact ⟨x, f, c, hx, hop, hname, hcontrols, hargs, hparams, hc, hlibrary⟩
  · cases hatomic

/-- The gate can be applied afresh to the other circuit, modifiers included, if the gate of the same name is like it. -/
theorem applyAnew_iff_reapply_pair : (paired (.pair "x" "cx" 1)).1.Arises {.packaged, .pair "x" "cx" 1}
      (paired (.pair "x" "cx" 1)).2 ∧
    ∃ x t, (paired (.pair "x" "cx" 1)).1.instruction? 0 = some x ∧ x.controls = [.lead] ∧
      (applyAnew x (.circuit 1)).Returns (paired (.pair "x" "cx" 1)).1 () t ∧
      ∃ j, (reapply 1 0 (.circuit 1)).Returns (paired (.pair "x" "cx" 1)).1 j t := by
  have hs := arises_paired (.pair "x" "cx" 1) (by decide +kernel)
  have hlibs := isRegular_paired (.pair "x" "cx" 1) (.pair "x" "cx" 1) (by decide +kernel)
  obtain ⟨x, f, c, hx, hop, hname, hcontrols, hargs, hparams, hc, hlibrary, -⟩ :=
    exists_paired (.pair "x" "cx" 1) (by decide +kernel) (by decide +kernel)
  have hreturns : ((reapply 1 0 (.circuit 1)).outcome (paired (.pair "x" "cx" 1)).1).1.toOption = some 1 := by
    decide +kernel
  have hreapply : (reapply 1 0 (.circuit 1)).Returns (paired (.pair "x" "cx" 1)).1 1 _ :=
    Prod.ext (toOption_eq_some.mp hreturns) rfl
  refine ⟨hs, x, _, hx, hcontrols, ?_, 1, hreapply⟩
  refine ((applyAnew_iff_reapply hs hlibs hx hop 0 (.circuit 1)).1 _).mpr ⟨⟨1, hreapply⟩, ?_⟩
  refine ⟨1, c, ⟨"x", [], 1, "x", [], some "cx"⟩, rfl, hc, ?_, ?_, ?_⟩
  · rw [hname, hlibrary]
    rfl
  · rw [hargs]
    rfl
  · rw [hparams]
    rfl

/-- Where the gate of the same name has another operand, the gate is applied again and attached all the same, though it
cannot be applied afresh. -/
theorem reapply_of_other_arity : (paired (.pair "x" "cx" 2)).1.Arises {.packaged, .pair "x" "cx" 2}
      (paired (.pair "x" "cx" 2)).2 ∧
    (∀ lib ∈ ({.packaged, .pair "x" "cx" 2} : Set Library), lib.IsRegular) ∧
    ∃ x f c t d, (paired (.pair "x" "cx" 2)).1.instruction? 0 = some x ∧ x.operation = .atomic f ∧
      (paired (.pair "x" "cx" 2)).1.circuit? 1 = some c ∧ c.data = [] ∧
      (reapply 1 0 (.circuit 1)).Returns (paired (.pair "x" "cx" 2)).1 1 t ∧ t.circuit? 1 = some d ∧ d.data = [1] ∧
      ∀ u, ¬ (applyAnew x (.circuit 1)).Returns (paired (.pair "x" "cx" 2)).1 () u := by
  obtain ⟨lost, horderly, -⟩ := (arises_paired (.pair "x" "cx" 2) (by decide +kernel)).exists_orderly
  obtain ⟨x, f, c, hx, hop, hname, hcontrols, hargs, hparams, hc, hlibrary, hdata⟩ :=
    exists_paired (.pair "x" "cx" 2) (by decide +kernel) (by decide +kernel)
  have hreturns : ((reapply 1 0 (.circuit 1)).outcome (paired (.pair "x" "cx" 2)).1).1.toOption = some 1 := by
    decide +kernel
  have hmember : (((reapply 1 0 (.circuit 1)).outcome (paired (.pair "x" "cx" 2)).1).2.circuit? 1).map Circuit.data =
      some [1] := by
    decide +kernel
  obtain ⟨d, hd, hmember⟩ := Option.map_eq_some_iff.mp hmember
  refine ⟨arises_paired _ (by decide +kernel), isRegular_paired _ (.pair "x" "cx" 2) (by decide +kernel), x, f, c, _, d,
    hx, hop, hc, hdata, Prod.ext (toOption_eq_some.mp hreturns) rfl, hd, hmember, fun u hu => ?_⟩
  have hfinite : ∀ p ∈ x.params, p.isFinite = true := by
    rw [hparams]
    exact fun p hp => absurd hp List.not_mem_nil
  obtain ⟨-, home, c', g, rfl, hc', hg, harity, -⟩ := reapply_of_applyAnew (n := 0) hx hop hfinite horderly.names hu
  cases hc.symm.trans hc'
  rw [hname, hlibrary] at hg
  cases hg
  rw [hargs] at harity
  cases harity

end Action

end QasmCircuit
