import QasmCircuit.Proofs.Circuit.Failure
import QasmCircuit.Proofs.Lowering.Lower

/-!
# Extension

A circuit is extended by another one completely or not at all. An extension that fails leaves everything as it was
(`Store.Unchanged`), however far it got. One that succeeds puts a copy of every instruction behind those that are there
already (`Store.IsCopy`), and nothing else changes.

That it succeeds wherever the two circuits have the same library, and registers that do not contradict each other, is
read off what is known of the instructions of a circuit: whatever was accepted once is accepted again
(`Instruction.IsRenewable`). A copy is built at a place where the old store still stands below it (`Store.CopySite`), so
that it can be compared with its original to the end.

> `Action.outcome_extend`: what an extension does.
-/

namespace QasmCircuit

open Outcome Relation List Instruction

variable {lib : Library} {regs rs : List Register} {home a b : CircuitId} {s t u : Store} {k : Container}
  {i j : InstructionId} {is : List InstructionId} {m n : Nat} {r q : Register} {libs : Set Library}
  {lost : Set InstructionId} {name : String}

/-! ## Copies -/

namespace Store

/-- An instruction of a circuit is what another one was: it has the same operation, parameters, operands and modifiers,
and its body holds copies of what stood in the other body. All of it is new since a number. -/
inductive IsCopy (s t : Store) (home : CircuitId) (m : Nat) : InstructionId → InstructionId → Prop
  | leaf {i j : InstructionId} {x : Instruction} (hx : s.instruction? i = some x) (hleaf : x.isComposite = false)
      (hy : t.instruction? j = some { x with circuit := home }) (hm : m ≤ j) : IsCopy s t home m i j
  | gate {i j : InstructionId} {x : Instruction} {name : String} {body copies : List InstructionId} {inverted : Bool}
      (hx : s.instruction? i = some x) (hop : x.operation = .composite name body inverted)
      (hy : t.instruction? j = some { x with operation := .composite name copies inverted, circuit := home })
      (hm : m ≤ j) (hlength : body.length = copies.length)
      (hall : ∀ k l, (k, l) ∈ body.zip copies → IsCopy s t home m k l) : IsCopy s t home m i j

variable {takes : Bit → Prop} {l : Nat} {x : Instruction}

theorem IsCopy.exists_instruction (h : IsCopy s t home m i j) (hx : s.instruction? i = some x) :
    ∃ y, t.instruction? j = some y ∧ y.circuit = home ∧ y.splitArgs = x.splitArgs ∧ y.controls = x.controls ∧
      y.condition = x.condition := by
  cases h with
  | leaf hx' _ hy _ =>
    cases hx.symm.trans hx'
    exact ⟨_, hy, rfl, rfl, rfl, rfl⟩
  | gate hx' hop hy _ _ _ =>
    cases hx.symm.trans hx'
    refine ⟨_, hy, rfl, ?_, rfl, rfl⟩
    rw [splitArgs_composite hop]
    exact splitArgs_composite rfl

theorem IsCopy.le_and_lt (h : IsCopy s t home m i j) : m ≤ j ∧ j < t.instructions.size := by
  cases h with
  | leaf _ _ hy hm => exact ⟨hm, instruction?_lt hy⟩
  | gate _ _ hy hm _ _ => exact ⟨hm, instruction?_lt hy⟩

/-- A copy stays one as long as nothing changes that is as new as the copy. -/
theorem IsCopy.congr (h : IsCopy s t home m i j) (hlm : l ≤ m)
    (hsame : ∀ p, m ≤ p → p < t.instructions.size → u.instruction? p = t.instruction? p) : IsCopy s u home l i j := by
  induction h with
  | leaf hx hleaf hy hm =>
    exact .leaf hx hleaf ((hsame _ hm (instruction?_lt hy)).trans hy) (hlm.trans hm)
  | gate hx hop hy hm hlength _ ih =>
    exact .gate hx hop ((hsame _ hm (instruction?_lt hy)).trans hy) (hlm.trans hm) hlength ih

/-- A place for copies of what a store holds: an attachment is possible there, and all that the store holds is as it
was. -/
structure CopySite (s : Store) (lib : Library) (regs : List Register) (home : CircuitId) (takes : Bit → Prop)
    (t : Store) (k : Container) : Prop extends t.Site lib regs home takes k where
  adds : s.Adds t
  beyond : k.IsBeyond s.instructions.size home

theorem CopySite.filled (h : s.CopySite lib regs home takes t k) (htu : Filled k is t u) :
    s.CopySite lib regs home takes u k := by
  refine ⟨h.toSite.filled htu, ⟨h.adds.size_le.trans htu.size_le, fun i hi => ?_⟩, h.beyond⟩
  have hx : t.instruction? i = some (s.instructions[i]) := (h.adds.old i hi).trans (Array.getElem?_eq_getElem hi)
  have hnone : k.forGate i is = [] := by
    have hbeyond := h.beyond
    cases k with
    | circuit c => rfl
    | gate g => exact if_neg (Nat.ne_of_gt (Nat.lt_of_lt_of_le hi hbeyond))
  rw [htu.old i _ hx, hnone, extended_nil]
  exact (Array.getElem?_eq_getElem hi).symm

theorem put_push (s : Store) (x y : Instruction) : (s.push x).put s.instructions.size y = s.push y := by
  have hset : (s.instructions.push x).setIfInBounds s.instructions.size y = s.instructions.push y := by
    grind
  rw [put, push, hset, push]

theorem put_put (s : Store) (i : InstructionId) (x y : Instruction) : (s.put i x).put i y = s.put i y := by
  rw [put, put, put, Array.setIfInBounds_setIfInBounds]

theorem put_of_some (h : s.instruction? i = some x) : s.put i x = s := by
  have hset : s.instructions.setIfInBounds i x = s.instructions := by
    rw [instruction?] at h
    grind
  rw [put, hset]

/-- Where all that is older is as it was, whatever the circuit, everything is. -/
theorem unchanged_of_beyond (h : ∀ c, s.Beyond s.instructions.size c t) : s.Unchanged t := by
  refine ⟨fun i x hx => ((h 0).instructions i (instruction?_lt hx)).trans hx, Array.ext_getElem? fun c => ?_⟩
  exact (h (c + 1)).circuits c (Nat.ne_of_lt (Nat.lt_succ_self c))

end Store

/-! ## Modifiers that are given again -/

namespace Action

variable {c : Circuit} {x y : Instruction} {f : Family}

/-- Registers of a circuit whose bits are not in use are accepted as controls. -/
theorem checkControlRegisters_of_fresh (hnames : (c.registers.map Register.name).Nodup)
    {used : List Bit} (hrs : ∀ r ∈ rs, r ∈ c.registers ∧ r.kind = .quantum)
    (h : Bit.Fresh used (rs.flatMap Register.bits)) :
    checkControlRegisters c name used (rs.map .register) = .ok rs := by
  induction rs generalizing used with
  | nil => rfl
  | cons r rest ih =>
    rw [forall_mem_cons] at hrs
    rw [flatMap_cons, Bit.fresh_append] at h
    have hquantum : r.isQuantum := beq_iff_eq.mpr hrs.1.2
    rw [map_cons, checkControlRegisters, if_pos hquantum, Circuit.checkQuantum_of_mem hnames hrs.1.1 hrs.1.2,
      checkFresh_eq_ok.mpr ⟨h.1, rfl⟩]
    exact bind_eq_ok.mpr ⟨(), rfl, bind_eq_ok.mpr ⟨_, rfl, bind_eq_ok.mpr ⟨rest, ih hrs.2 h.2, rfl⟩⟩⟩

section

variable (hy : s.instruction? j = some y)

include hy

section

variable (hc : s.circuit? y.circuit = some c)

include hc

/-- A gate of the library without controls is controlled, if it has a form with the controls. -/
theorem returns_control
    (hnames : (c.registers.map Register.name).Nodup) (hop : y.operation = .atomic f) (hnone : y.controls = [])
    (hrs : ∀ r ∈ rs, r ∈ c.registers ∧ r.kind = .quantum)
    (hdistinct : Bit.distinct (rs.flatMap Register.bits ++ y.args))
    (hfamily : (c.library.controlledBy (rs.flatMap Register.bits).length f).isSome) :
    (control (n + 1) j (rs.map .register)).Returns s () (s.put j { y with controls := rs }) := by
  have hbits : y.controlBits = [] := by
    rw [Instruction.controlBits, hnone]
    rfl
  have hcheck : (checkControls (n + 1) j (rs.map .register)).Returns s rs s := by
    refine (returns_instruction hy).bind (Returns.bind (returns_circuit hc) ?_)
    rw [hbits, append_nil, checkControlRegisters_of_fresh hnames hrs
      (Bit.nodup_append_iff.mp (Bit.distinct_iff.mp hdistinct)).1]
    refine Returns.bind (rfl : (lift (Except.ok rs)).Returns s rs s) ?_
    obtain ⟨g, hg⟩ := Option.isSome_iff_exists.mp hfamily
    have htotal : (rs.flatMap Register.bits).length = ([] : List Bit).length + (rs.map (·.size)).sum := by
      rw [length_flatMap, length_nil, Nat.zero_add]
      exact congrArg List.sum (map_congr_left fun r _ => r.length_bits)
    rw [htotal] at hg
    dsimp only
    rw [hop]
    dsimp only
    rw [controlledFamily_eq_ok.mpr hg]
    rfl
  refine (returns_instruction hy).bind ?_
  rw [hop]
  refine hcheck.bind ?_
  rw [hnone, nil_append]
  rfl

/-- An instruction without a body is conditioned. -/
theorem returns_condition
    (hnames : (c.registers.map Register.name).Nodup) (hbarrier : y.isBarrier = false) (hleaf : y.isComposite = false)
    {v : Int} (hr : r ∈ c.registers ∧ r.kind = .classical ∧ r.fits v) :
    (condition (n + 1) j (.register r) (.datum (.int v))).Returns s ()
    (s.put j { y with condition := some (r, v) }) := by
  have hcheck : (checkCondition y (.register r) (.datum (.int v))).Returns s (r, v) s :=
    returns_checkCondition (g := (r, v)) hc (Circuit.checkCondition_of_mem hnames hr.1 hr.2.1 hr.2.2) rfl
  refine (returns_instruction hy).bind ?_
  split
  · next hop =>
    rw [Instruction.isBarrier, hop] at hbarrier
    cases hbarrier
  · exact hcheck.bind rfl
  · exact hcheck.bind rfl
  · next hop => exact absurd_leaf hleaf hop

/-- The modifiers of an instruction are accepted by one without a body that acts on the registers with them. -/
theorem returns_applyModifiers
    (hnames : (c.registers.map Register.name).Nodup) (hbarrier : y.isBarrier = false) (hleaf : y.isComposite = false)
    (hnone : y.controls = [] ∧ y.condition = none)
    (hfits : { y with controls := x.controls, condition := x.condition : Instruction }.Fits c.registers)
    (hcontrols : x.controls = [] ∨ ∃ f, y.operation = .atomic f ∧
      (c.library.controlledBy x.controlBits.length f).isSome) :
    (applyModifiers x j).Returns s () (s.put j { y with controls := x.controls, condition := x.condition }) := by
  have hguarded : { y with controls := x.controls, condition := none } = { y with controls := x.controls } := by
    rw [← hnone.2]
  have hput := s.instruction?_put j { y with controls := x.controls } (Store.instruction?_lt hy)
  -- Controls come first; where there are none, nothing is asked of the library.
  have hcontrolled : ∀ {n : Nat} {a : PUnit → Action Unit} {t : Store},
      (a ()).Returns (s.put j { y with controls := x.controls }) () t →
      (if (!x.controls.isEmpty) = true then control (n + 1) j (x.controls.map .register) >>= a
        else a ()).Returns s () t := by
    intro n a t ha
    split
    · next hempty =>
      rcases hcontrols with hnil | ⟨f, hop, hfamily⟩
      · rw [hnil] at hempty
        cases hempty
      · refine Returns.bind (returns_control hy hc hnames hop hnone.1 hfits.controls ?_ hfamily) ha
        have hargs : { y with controls := x.controls, condition := x.condition : Instruction }.splitArgs =
          (y.args, []) :=
          splitArgs_atomic hop
        have hdistinct := hfits.distinct
        rw [hargs] at hdistinct
        exact hdistinct
    · next hempty =>
      have hnil : x.controls = y.controls := by
        rw [Bool.not_eq_true', Bool.not_eq_false] at hempty
        rw [List.isEmpty_iff.mp hempty, hnone.1]
      rw [hnil, Store.put_of_some hy] at ha
      exact ha
  refine Returns.bind (rfl : depth.Returns s _ s) (hcontrolled ?_)
  cases hx : x.condition with
  | none =>
    rw [hguarded]
    rfl
  | some p =>
    have hcondition := returns_condition (n := s.instructions.size) (y := { y with controls := x.controls }) hput hc
      hnames
      hbarrier hleaf (hfits.condition p.1 p.2 hx)
    rw [Store.put_put] at hcondition
    exact hcondition

end

end

end Action

/-! ## Instructions that are applied again -/

/-- An instruction that a circuit with a library and some registers accepts: it acts on the registers, and gates are
those that circuits with the library can have. -/
structure Instruction.IsRenewable (lib : Library) (regs : List Register) (x : Instruction) : Prop where
  fits : x.Fits regs
  native : x.IsNative lib
  proper : x.isAtomic = false → x.IsProper lib

/-- What stands below a place is accepted, and bodies hold only what acts on the operands of their gate. -/
def Store.RenewableBelow (s : Store) (lib : Library) (regs : List Register) (i : InstructionId) : Prop :=
  ∀ j, ReflTransGen s.Contains i j → ∃ x, s.instruction? j = some x ∧ x.IsRenewable lib regs ∧
    ∀ l ∈ x.inside, s.InScope x.args l

namespace Action

open Store

variable {takes : Bit → Prop} {x : Instruction} {again : InstructionId → Container → Action InstructionId}

/-- What acts on the registers passes the checks of a container. -/
theorem returns_checkInstruction (hk : t.Site lib regs home takes k) (hhome : x.circuit = home)
    (hfits : x.Fits regs) (htakes : ∀ b ∈ x.splitArgs.1, takes b)
    (hclassical : ∀ b ∈ x.splitArgs.2, k = .circuit home) : (checkInstruction k x).Returns t () t := by
  obtain ⟨c, hc, rfl, -⟩ := hk.circuit
  have hqubits : (x.splitArgs.1.forM (checkQubit k)).Returns t () t :=
    returns_forM fun b hb => returns_checkQubit hk (hfits.qubits b hb) (htakes b hb)
  have hclbits : (x.splitArgs.2.forM (checkClbit k)).Returns t () t := by
    refine returns_forM fun b hb => ?_
    cases hclassical b hb
    exact returns_checkClbit hk (hfits.clbits b hb)
  have hcontrols : (x.controls.forM fun r => lift (asModifier (.cannotControl x.name)
    (c.checkQuantum (.register r)))).Returns
      t () t := by
    refine returns_forM fun r hr => ?_
    rw [Circuit.checkQuantum_of_mem hk.names (hfits.controls r hr).1 (hfits.controls r hr).2]
    rfl
  have hcondition : (checkOwnCondition x).Returns t () t := by
    unfold checkOwnCondition
    cases hx : x.condition with
    | none => rfl
    | some p =>
      obtain ⟨hr, hkind, hvalue⟩ := hfits.condition p.1 p.2 hx
      exact (returns_checkCondition (g := p) hc (Circuit.checkCondition_of_mem hk.names hr hkind hvalue) hhome).bind rfl
  unfold checkInstruction
  refine (returns_circuitOf hk).bind ((returns_circuit hc).bind ?_)
  rw [if_neg (not_not.mpr hhome)]
  refine hqubits.bind (hclbits.bind ?_)
  show Returns (if (!Bit.distinct (x.controlBits ++ x.splitArgs.1)) = true then _ else _) t () t
  rw [hfits.distinct]
  exact hcontrols.bind hcondition

/-- An instruction without a body is renewed for a circuit that accepts it. -/
theorem returns_renew_leaf (hk : t.Site lib regs home takes k) (hlib : lib.IsAligned)
    (hx : t.instruction? i = some x) (hleaf : x.isComposite = false) (hrenewable : x.IsRenewable lib regs) :
    (renew again i home).Returns t t.instructions.size (t.push { x with circuit := home }) := by
  obtain ⟨c, hc, rfl, rfl⟩ := hk.circuit
  obtain ⟨hfits, hnative, hproper⟩ := hrenewable
  -- The modifiers are given to a new instruction without any.
  have hmodified : ∀ {y z : Instruction}, (applyModifiers x t.instructions.size).Returns (t.push y) ()
      ((t.push y).put t.instructions.size z) → (do
      let j ← create y
      applyModifiers x j
      pure j).Returns t t.instructions.size (t.push z) := fun ha =>
    Returns.bind (rfl : (create _).Returns t _ (t.push _)) ((t.put_push _ _ ▸ ha).bind rfl)
  refine (returns_instruction hx).bind ?_
  cases hop : x.operation with
  | composite name body inverted => exact absurd_leaf hleaf hop
  | barrier =>
    have hbare := hproper (by rw [Instruction.isAtomic, hop])
    rw [IsProper, hop] at hbare
    obtain ⟨-, hcontrols, hcondition, hparams⟩ := hbare
    rw [hcontrols, hcondition, hparams]
    rfl
  | measure =>
    have hbare := hproper (by rw [Instruction.isAtomic, hop])
    rw [IsProper, hop] at hbare
    obtain ⟨-, hcontrols, hparams⟩ := hbare
    rw [hparams]
    refine hmodified (returns_applyModifiers (y := { operation := .measure, args := x.args, circuit := home })
      (t.instruction?_push_self _) hc hk.names rfl rfl ⟨rfl, rfl⟩ ?_ (.inl hcontrols))
    exact hfits.congr (by rw [Instruction.splitArgs, Instruction.splitArgs, hop]) rfl rfl
  | atomic f =>
    rw [IsNative, hop] at hnative
    have hlookup := returns_lift t (Library.lookup_eq_ok.mpr hnative.1)
    refine (returns_circuit hc).bind (hlookup.bind (hmodified (returns_applyModifiers
      (y := { operation := .atomic f, params := x.params, args := x.args, circuit := home })
      (t.instruction?_push_self _) hc hk.names rfl rfl ⟨rfl, rfl⟩ ?_ (.inr ⟨f, rfl, hnative.2 hlib⟩))))
    exact hfits.congr (by rw [Instruction.splitArgs, Instruction.splitArgs, hop]) rfl rfl

section

variable (hk : s.CopySite lib regs home takes t k)

include hk

/-- One copy after the other is put into a container. -/
theorem ends_copies {f : InstructionId → Action InstructionId}
    (hf : ∀ i ∈ is, ∀ u, s.CopySite lib regs home takes u k → (f i).Attains u
      (fun j v => Filled k [j] u v ∧ IsCopy s v home u.instructions.size i j)) :
    (is.forM fun i => do
      let _ ← f i).Attains t fun _ u => ∃ new, Filled k new t u ∧
        Forall₂ (IsCopy s u home t.instructions.size) is new ∧ new.Pairwise (· < ·) := by
  induction is generalizing t with
  | nil => exact ⟨[], .refl k t, .nil, .nil⟩
  | cons i is ih =>
    rw [forall_mem_cons] at hf
    have hfirst : (do
        let _ ← f i).Attains t fun _ u => ∃ j, Filled k [j] t u ∧ IsCopy s u home t.instructions.size i j :=
      Ends.bind (hf.1 t hk) fun j u hu => ends_pure.mpr ⟨j, hu⟩
    refine hfirst.bind fun _ u hu => ?_
    obtain ⟨j, hfilled, hcopy⟩ := hu
    refine (ih (hk.filled hfilled) hf.2).map fun _ v hv => ?_
    obtain ⟨new, hfilled', hcopies, hsorted⟩ := hv
    have hkept : IsCopy s v home t.instructions.size i j :=
      hcopy.congr (Nat.le_refl _) fun p hp hlt => hfilled'.same hk.isOld hp hlt
    refine ⟨j :: new, hfilled.trans hfilled', .cons hkept ?_, .cons (fun l hl => ?_) hsorted⟩
    · exact hcopies.imp fun _ _ h => h.congr hfilled.size_le fun _ _ _ => rfl
    · obtain ⟨_, -, hl⟩ := exists_of_forall₂ hcopies l hl
      exact Nat.lt_of_lt_of_le hcopy.le_and_lt.2 hl.le_and_lt.1

/-- A gate whose body is filled with copies, and that is given its modifiers then, is a copy. -/
theorem ends_renew_body {body : List InstructionId}
    {inverted : Bool} (hx : s.instruction? i = some x) (hop : x.operation = .composite name body inverted)
    (hagain : ∀ l ∈ body, ∀ g u, s.CopySite lib regs home (fun b => b.among x.args) u (.gate g) →
      (again l (.gate g)).Attains u (fun j v => Filled (.gate g) [j] u v ∧ IsCopy s v home u.instructions.size l j)) :
    Attains (do
        body.forM fun l => do
          let _ ← again l (.gate t.instructions.size)
        let y ← instruction t.instructions.size
        let built ← Action.body t.instructions.size
        put t.instructions.size { y with
          operation := .composite name built inverted, condition := x.condition, controls := x.controls }
        pure t.instructions.size) (t.push (.shell home name x.params x.args))
      fun j u => Filled k [] t u ∧ IsCopy s u home t.instructions.size i j := by
  have hadds := t.adds_push (.shell home name x.params x.args)
  have hshell := t.instruction?_push_self (.shell home name x.params x.args)
  have hg := instruction?_lt hshell
  have hsite : s.CopySite lib regs home (fun b => b.among x.args) (t.push (.shell home name x.params x.args))
      (.gate t.instructions.size) :=
    ⟨⟨hk.names, hk.circuit, _, hshell, rfl, rfl, fun _ h => h⟩, hk.adds.trans hadds, hk.adds.size_le⟩
  refine Ends.bind (ends_copies hsite fun l hl u => hagain l hl _ u) fun _ u hu => ?_
  obtain ⟨new, hfilled, hcopies, -⟩ := hu
  -- The modifiers are written into the filled gate; they are not given to its body again.
  have hbuilt : u.instruction? t.instructions.size =
      some { Instruction.shell home name x.params x.args with operation := .composite name new false } := by
    rw [hfilled.old _ _ hshell, Container.forGate, if_pos rfl, extended_of_composite rfl]
    rfl
  have hbody : (Action.body t.instructions.size).Returns u new u := (returns_instruction hbuilt).bind rfl
  refine (returns_instruction hbuilt).ends_bind.mpr (hbody.ends_bind.mpr ?_)
  refine ends_bind.mpr (ends_modify.mpr (ends_pure.mpr ⟨?_, ?_⟩))
  · -- Filling the new gate has left alone all that was there before it.
    have hold : ∀ p, p < t.instructions.size → u.instruction? p = t.instruction? p := by
      intro p hp
      have hw : t.instruction? p = some t.instructions[p] := Array.getElem?_eq_getElem hp
      rw [hfilled.old p _ ((hadds.old p hp).trans hw), Container.forGate, if_neg (Nat.ne_of_gt hp), extended_nil, hw]
    refine (Filled.refl k t).congr ?_ (fun p hp => ?_) fun c d hd => ?_
    · rw [Store.put, Array.size_setIfInBounds]
      exact hadds.size_le.trans hfilled.size_le
    · rw [instruction?_put_ne _ _ _ _ (Nat.ne_of_gt hp), hold p hp]
    · have hcircuit := hfilled.circuits c d hd
      rw [Container.forCircuit, append_nil] at hcircuit
      exact hcircuit
  · refine .gate hx hop ?_ (Nat.le_refl _) hcopies.length_eq fun p l hpl => ?_
    · exact instruction?_put _ _ _ (instruction?_lt hbuilt)
    · refine ((forall₂_iff_zip.mp hcopies).2 hpl).congr hadds.size_le fun q hq _ => ?_
      exact instruction?_put_ne _ _ _ _ (Nat.ne_of_lt (Nat.lt_of_lt_of_le hg hq))

/-- An instruction is renewed if the members of its body are. -/
theorem ends_renew (hlib : lib.IsAligned) (hx : s.instruction? i = some x) (hrenewable : x.IsRenewable lib regs)
    (hagain : ∀ l ∈ x.inside, ∀ g u, s.CopySite lib regs home (fun b => b.among x.args) u (.gate g) →
      (again l (.gate g)).Attains u (fun j v => Filled (.gate g) [j] u v ∧ IsCopy s v home u.instructions.size l j)) :
    (renew again i home).Attains t fun j u => Filled k [] t u ∧ IsCopy s u home t.instructions.size i j := by
  have hxt : t.instruction? i = some x := (hk.adds.old i (instruction?_lt hx)).trans hx
  cases hleaf : x.isComposite with
  | false =>
    refine (returns_renew_leaf hk.toSite hlib hxt hleaf hrenewable).ends.mpr ⟨?_, ?_⟩
    · exact .of_adds (t.adds_push _) (fun _ _ hd => hd) k
    · exact .leaf hx hleaf (t.instruction?_push_self _) (Nat.le_refl _)
  | true =>
    obtain ⟨name, body, inverted, hop⟩ := isComposite_iff.mp hleaf
    obtain ⟨hfits, hnative, hproper⟩ := hrenewable
    have hinside : x.inside = body := by rw [Instruction.inside, hop]
    have hargs : x.splitArgs = (x.args, []) := splitArgs_composite hop
    have hne := hproper (by rw [Instruction.isAtomic, hop])
    have hbits := hfits.qubits
    have hdistinct := hfits.distinct
    rw [IsNative, hop] at hnative
    rw [IsProper, hop] at hne
    rw [hargs] at hbits hdistinct
    have hdistinct' : Bit.distinct x.args := by
      rw [Bit.distinct_iff, map_append] at hdistinct
      exact Bit.distinct_iff.mpr hdistinct.of_append_right
    refine (returns_instruction hxt).ends_bind.mpr ?_
    rw [hop]
    refine Ends.bind ((ends_newComposite_of_bits hk.names hk.circuit hnative.2 hne hbits hdistinct').imp
      (fun _ _ h => h) fun e u h => ?_) fun g u hu => ?_
    · rw [hnative.1] at h
      cases h.1
    obtain ⟨-, rfl, rfl⟩ := hu
    exact ends_renew_body hk hx hop (hinside ▸ hagain)

end

/-- A copy passes the checks of a container that takes the operands of its original. -/
theorem ends_attach_copy (hk : t.Site lib regs home takes k) (hcopy : IsCopy s t home m i j)
    (hx : s.instruction? i = some x) (hfits : x.Fits regs) (htakes : ∀ b ∈ x.splitArgs.1, takes b)
    (hclassical : ∀ b ∈ x.splitArgs.2, k = .circuit home) : (attach k j).Attains t fun _ u => Filled k [j] t u := by
  obtain ⟨y, hy, hhome, hargs, hcontrols, hcondition⟩ := hcopy.exists_instruction hx
  rw [← hargs] at htakes hclassical
  have hcheck := returns_checkInstruction hk hhome (hfits.congr hargs hcontrols hcondition) htakes hclassical
  refine (returns_instruction hy).ends_bind.mpr (hcheck.ends_bind.mpr ?_)
  exact (ends_attachChecked hk hy).map fun _ _ h => h.1

theorem nests_inside {P : Instruction → Prop} (h : s.Nests P n (s.element i)) (hx : s.instruction? i = some x)
    {l : InstructionId} (hl : l ∈ x.inside) : ∃ m, n = m + 1 ∧ s.Nests P m (s.element l) := by
  cases hleaf : x.isComposite with
  | false =>
    rw [inside_of_leaf hleaf] at hl
    exact absurd hl not_mem_nil
  | true =>
    obtain ⟨name, body, inverted, hop⟩ := isComposite_iff.mp hleaf
    rw [element_of_composite hx hop] at h
    cases n with
    | zero => exact h.elim
    | succ n =>
      obtain ⟨F, hF, hall⟩ := h
      cases hF.symm.trans (face_of_composite hx hop)
      rw [Instruction.inside, hop] at hl
      exact ⟨n, rfl, hall _ (mem_map_of_mem hl)⟩

/-- What does not contain itself is applied again to every container that takes its operands. -/
theorem ends_reapply (hlib : lib.IsAligned) (hnests : s.Nests (fun _ => True) n (s.element i))
    (hbelow : s.RenewableBelow lib regs i) (hx : s.instruction? i = some x)
    (hk : s.CopySite lib regs home takes t k) (htakes : ∀ b ∈ x.splitArgs.1, takes b)
    (hclassical : ∀ b ∈ x.splitArgs.2, k = .circuit home) :
    (reapply (n + 1) i k).Attains t fun j u => Filled k [j] t u ∧ IsCopy s u home t.instructions.size i j := by
  -- The fuel is the depth of the original: a member of its body lies one level deeper.
  induction n using Nat.strong_induction_on generalizing i x t k takes with
  | _ n ih =>
    obtain ⟨x', hx', hrenewable, hscope⟩ := hbelow i .refl
    cases hx.symm.trans hx'
    refine (returns_circuitOf hk.toSite).ends_bind.mpr
      (Ends.bind (ends_renew hk hlib hx hrenewable ?_) fun j u hu => ?_)
    · intro l hl g u hu
      obtain ⟨m, rfl, hm⟩ := nests_inside hnests hx hl
      obtain ⟨y, hy, hmeasure, hargs⟩ := hscope l hl
      have hsplit : y.splitArgs = (y.args, []) := by
        rw [splitArgs_eq, hmeasure]
        rfl
      refine ih m (Nat.lt_succ_self m) hm (fun p hp => hbelow p (.head ⟨x, hx, hl⟩ hp)) hy hu ?_ ?_
      · rw [hsplit]
        exact hargs
      · rw [hsplit]
        exact forall_mem_nil _
    · obtain ⟨hfilled, hcopy⟩ := hu
      refine Ends.bind (ends_attach_copy (hk.filled hfilled).toSite hcopy hx hrenewable.fits htakes hclassical)
        fun _ v hv => ends_pure.mpr ⟨hfilled.trans hv, ?_⟩
      exact hcopy.congr (Nat.le_refl _) fun p hp hlt => hv.same hk.isOld hp hlt

/-- What is built again is built beside everything else. -/
theorem unchanged_renew (n : Nat) (i : InstructionId) (home : CircuitId) :
    (renew (reapply n) i home).Leaves s s.Unchanged := by
  have hbeyond : ∀ c, (renew (reapply n) i home).Spares s.instructions.size c s fun _ _ => True := fun c =>
    spares_renew (fun l _ _ hle hj => spares_reapply n l hj hle) i home (Nat.le_refl _)
  exact (Ends.forall hbeyond).imp (fun _ _ h => unchanged_of_beyond fun c => (h c).1) fun _ _ h => unchanged_of_beyond h

end Action

/-! ## Extensions that fail -/

namespace Action

open Store

/-- An extension changes one circuit and nothing else, and if it fails it changes nothing at all. -/
theorem ends_extend_beyond (hshort : ∀ y, s.circuit? b = some y → ∀ r ∈ y.registers, Text.isShort r.size) :
    (extend a b).Ends s (fun _ t => s.Beyond s.instructions.size a t) fun _ t => s.Unchanged t := by
  refine reads_circuit.ends_bind (fun _ => .refl s) fun x hx => reads_circuit.ends_bind
    (fun _ => .refl s) fun y hy => ?_
  refine (Reads.forM (P := fun _ => True) fun r _ => ?_).ends_bind (fun _ => .refl s) fun _ _ => ?_
  · split
    · exact reads_ite (fun _ => reads_fail) fun _ => reads_pure trivial
    · exact reads_pure trivial
  refine ends_bind.mpr (ends_addRegisters_any.imp (fun _ t hst => ?_) fun e t ht => ?_)
  · obtain ⟨x', rs, hx', -, -, ht⟩ := hst
    have hst : s.Beyond s.instructions.size a t := beyond_of_declared hx' ht
    have hloop : ∀ n, (y.data.forM fun i => do
        let _ ← reapply n i (.circuit a)).Spares s.instructions.size a t fun _ _ => True := fun n =>
      spares_forM fun i _ u htu => (spares_reapply n i (k := .circuit a) rfl
        (htu.le_size (hst.le_size (Nat.le_refl _)))).bind fun _ _ _ _ => spares_pure trivial
    refine ends_bind.mpr (ends_depth.mpr (ends_tryCatch.mpr
      ((hloop _).imp (fun _ _ h => hst.trans h.1) fun e u htu => ?_)))
    -- Copies that fail half way are cut off again: the circuit gets back its registers and its instructions.
    have hsu := hst.trans htu
    obtain ⟨now, hnow, -⟩ := hsu.circuit x hx
    refine (returns_circuit hnow).ends_bind.mpr
      (ends_bind.mpr (ends_modify.mpr (ends_throw.mpr ⟨fun i z hz => ?_, ?_⟩)))
    · exact (hsu.instructions i (instruction?_lt hz)).trans hz
    · exact Array.ext_getElem? (hsu.circuit?_revert hx hnow)
  · rcases ht with rfl | ⟨-, x', before, r, after, -, hrs, -, hlong, -⟩
    · exact .refl t
    · -- The registers that are missing stand in a circuit, so that their sizes can be written.
      obtain ⟨q, hq, hqr⟩ := mem_map.mp ((check_ok hrs).1 ▸ mem_map_of_mem (mem_append_right before mem_cons_self) :
        Argument.register r ∈ (y.registers.filter _).map .register)
      cases hqr
      exact absurd (hshort y hy r (mem_of_mem_filter hq)) (by rw [hlong]; exact Bool.false_ne_true)

end Action

/-! ## Extensions that succeed -/

/-- Registers that have the same name have the same kind and size. -/
def Register.Agree (rs qs : List Register) : Prop :=
  ∀ r ∈ rs, ∀ q ∈ qs, r.name = q.name → r.kind = q.kind ∧ r.size = q.size

instance {rs qs : List Register} : Decidable (Register.Agree rs qs) :=
  inferInstanceAs (Decidable (∀ r ∈ rs, ∀ q ∈ qs, r.name = q.name → r.kind = q.kind ∧ r.size = q.size))

/-- The registers of a circuit and those that are missing there. -/
def Register.joined (rs qs : List Register) : List Register :=
  rs ++ qs.filter fun q => q.name ∉ rs.map Register.name

namespace Register

variable {qs : List Register}

theorem eq_of_agree (h : Agree rs qs) (hr : r ∈ rs) (hq : q ∈ qs) (hname : r.name = q.name) : r = q := by
  obtain ⟨hkind, hsize⟩ := h r hr q hq hname
  cases r
  cases q
  cases hname
  cases hkind
  cases hsize
  rfl

theorem subset_joined (h : Agree rs qs) : qs ⊆ joined rs qs := by
  intro q hq
  by_cases hname : q.name ∈ rs.map Register.name
  · obtain ⟨r, hr, hrq⟩ := mem_map.mp hname
    exact mem_append_left _ (eq_of_agree h hr hq hrq ▸ hr)
  · exact mem_append_right _ (mem_filter.mpr ⟨hq, decide_eq_true hname⟩)

theorem nodup_joined (hrs : (rs.map Register.name).Nodup) (hqs : (qs.map Register.name).Nodup) :
    ((joined rs qs).map Register.name).Nodup := by
  rw [joined, map_append, nodup_append]
  refine ⟨hrs, hqs.sublist (filter_sublist.map _), ?_⟩
  rintro _ hname _ hmem rfl
  obtain ⟨q, hq, rfl⟩ := mem_map.mp hmem
  exact of_decide_eq_true (mem_filter.mp hq).2 hname

end Register

namespace Circuit

variable {x : Circuit}

theorem register?_eq_none : x.register? r.name = none ↔ r.name ∉ x.registers.map Register.name := by
  rw [register?, find?_eq_none, mem_map, not_exists]
  simp only [beq_iff_eq, not_and]

theorem register?_eq_some (hnames : (x.registers.map Register.name).Nodup) :
    x.register? r.name = some q ↔ q ∈ x.registers ∧ q.name = r.name := by
  constructor
  · intro h
    exact ⟨mem_of_find?_eq_some h, beq_iff_eq.mp (@find?_some _ (fun q : Register => q.name == r.name) _ _ h)⟩
  · rintro ⟨hq, hname⟩
    rw [← hname]
    exact find?_register hnames hq

end Circuit

namespace Store

variable {loose : Set InstructionId} {x y : Circuit}

theorem Orderly.member_below (hs : s.Orderly libs lost loose) (hi : s.Member lost loose b i)
    (hij : ReflTransGen s.Contains i j) : s.Member lost loose b j := by
  induction hij with
  | refl => exact hi
  | tail _ hlast ih =>
    obtain ⟨z, hz, hmem⟩ := hlast
    obtain ⟨w, hw, rfl⟩ := ih.exists_instruction
    cases hz.symm.trans hw
    exact (hs.body _ z ih.kept hz _ hmem).toMember

/-- The instructions of a circuit are accepted by all circuits with the same library and at least the same
registers. -/
theorem Orderly.renewableBelow (hs : s.Orderly libs lost loose) (hy : s.circuit? b = some y)
    (hi : s.Member lost loose b i) (hregs : y.registers ⊆ regs) : s.RenewableBelow y.library regs i := by
  intro j hij
  have hj := hs.member_below hi hij
  obtain ⟨z, hz, rfl, c, hc, hfits⟩ := hj.fits
  cases hy.symm.trans hc
  have hformed := hs.formed j z hj.kept hz
  have hnative : z.IsNative y.library := by
    rw [IsNative]
    cases hop : z.operation with
    | atomic f => exact hformed.isNative hop hy
    | composite name body inverted =>
      obtain ⟨-, d, hd, hnamed⟩ := hformed.composite hop
      cases hy.symm.trans hd
      exact hnamed
    | _ => trivial
  exact ⟨z, hz, ⟨hfits.mono hregs, hnative, fun hatomic => hformed.isProper hatomic _⟩,
    fun l hl => (hs.body j z hj.kept hz l hl).scope⟩

/-- A circuit has the missing registers of another one, and new copies of its instructions, behind what it had. -/
def IsExtended (s : Store) (a : CircuitId) (x y : Circuit) (t : Store) : Prop :=
  ∃ new, t.circuit? a = some { x with
      registers := Register.joined x.registers y.registers, data := x.data ++ new } ∧
    Forall₂ (IsCopy s t a s.instructions.size) y.data new ∧ new.Pairwise (· < ·)

end Store

namespace Action

open Store

variable {x y : Circuit} {handed : List InstructionId}

/-- An extension succeeds only if the registers agree. -/
theorem agree_of_extend (hx : s.circuit? a = some x) (hy : s.circuit? b = some y)
    (hnames : (x.registers.map Register.name).Nodup) :
    (extend a b).Ends s (fun _ _ => Register.Agree x.registers y.registers) fun _ _ => True := by
  refine (returns_circuit hx).ends_bind.mpr ((returns_circuit hy).ends_bind.mpr ?_)
  refine (Reads.forM (P := fun r => ∀ q, x.register? r.name = some q → q = r) fun r _ => ?_).ends_bind
    (fun _ => trivial) fun _ hall => ?_
  · split
    · next own hown =>
      refine reads_ite (fun _ => reads_fail) fun heq => reads_pure fun q hq => ?_
      cases hown.symm.trans hq
      exact not_not.mp heq
    · next hnone =>
      refine reads_pure fun q hq => ?_
      cases hnone.symm.trans hq
  · have hagree : Register.Agree x.registers y.registers := by
      intro r hr q hq hname
      cases hall q hq r ((Circuit.register?_eq_some hnames).mpr ⟨hr, hname⟩)
      exact ⟨rfl, rfl⟩
    unfold Ends
    split
    · exact hagree
    · trivial

/-- Where the registers agree, a circuit is extended by another one with the same library. -/
theorem ends_extend (hs : s.Orderly libs lost ∅) (hx : s.circuit? a = some x) (hy : s.circuit? b = some y)
    (hlib : y.library.IsAligned) (hlibrary : x.library = y.library) (hnested : s.IsNested b)
    (hagree : Register.Agree x.registers y.registers) : (extend a b).Attains s fun _ t => s.IsExtended a x y t := by
  have hnames := hs.names a x hx
  have hjoined := Register.nodup_joined hnames (hs.names b y hy)
  have hmissing : (y.registers.filter fun r => (x.register? r.name).isNone) =
      y.registers.filter fun q => q.name ∉ x.registers.map Register.name := by
    refine filter_congr fun r _ => ?_
    rw [Bool.eq_iff_iff, Option.isNone_iff_eq_none, Circuit.register?_eq_none, decide_eq_true_eq]
  refine (returns_circuit hx).ends_bind.mpr ((returns_circuit hy).ends_bind.mpr ?_)
  refine Returns.ends_bind (t := s) (v := ()) (returns_forM fun r hr => ?_) |>.mpr ?_
  · split
    · next own hown =>
      obtain ⟨hmem, hname⟩ := (Circuit.register?_eq_some hnames).mp hown
      rw [if_neg (not_not.mpr (Register.eq_of_agree hagree hmem hr hname))]
      rfl
    · rfl
  rw [hmissing]
  -- With the missing registers, the circuit accepts all that the other one holds.
  refine Ends.bind (ends_addRegisters hx hjoined fun r hr => hs.short b y hy r (mem_of_mem_filter hr)) fun _ t ht =>
    ends_bind.mpr (ends_depth.mpr ?_)
  have hxt : t.circuit? a = some { x with registers := Register.joined x.registers y.registers } := by
    rw [ht.2, if_pos rfl, Register.joined]
  have hsite : s.CopySite y.library (Register.joined x.registers y.registers) a (fun _ => True) t (.circuit a) := by
    refine ⟨⟨hjoined, ⟨_, hxt, rfl, hlibrary⟩, rfl⟩, ⟨?_, fun i _ => ?_⟩, rfl⟩
    · rw [ht.1]
    · rw [instruction?, ht.1, instruction?]
  have hcopy : ∀ i ∈ y.data, ∀ u,
      s.CopySite y.library (Register.joined x.registers y.registers) a (fun _ => True) u (.circuit a) →
      (reapply (t.instructions.size + 1) i (.circuit a)).Attains u fun j v =>
        Filled (.circuit a) [j] u v ∧ IsCopy s v a u.instructions.size i j := by
    intro i hi u hu
    have hmember := hs.data b y hy i hi
    have hbelow : s.NestedBelow i := fun j hij => hnested j (Within.of_reflTransGen (.data hy hi) hij)
    obtain ⟨z, hz, -⟩ := hmember.exists_instruction
    have hnests := nests_of_nestedBelow (P := fun _ => True) hs hmember.known hbelow fun _ _ _ _ _ => trivial
    rw [ht.1]
    exact ends_reapply hlib hnests (hs.renewableBelow hy hmember (Register.subset_joined hagree)) hz hu
      (fun _ _ => trivial) fun _ _ => rfl
  refine ends_tryCatch.mpr ((ends_copies hsite hcopy).ends fun _ u hu => ?_)
  obtain ⟨new, hfilled, hcopies, hsorted⟩ := hu
  refine ⟨new, ?_, ?_, hsorted⟩
  · rw [hfilled.circuits a _ hxt, Container.forCircuit, if_pos rfl]
  · rw [ht.1] at hcopies
    exact hcopies

/-- An extension is complete or changes nothing: it changes one circuit only, and none if it fails, with any libraries.
If both circuits have the packaged library, and no gate of the one that is added contains itself, then it succeeds
exactly if registers of the same name have the same kind and size; and then new copies of the instructions stand behind
those that were there, on the old registers and the missing ones. -/
theorem outcome_extend (hs : s.Arises libs handed) (hx : s.circuit? a = some x) (hy : s.circuit? b = some y) :
    (∀ e t, (extend a b).outcome s = (.error e, t) → s.Unchanged t) ∧
    (x.library = .packaged → y.library = .packaged → s.IsNested b →
      ((∃ t, (extend a b).Returns s () t) ↔ Register.Agree x.registers y.registers) ∧
      ∀ t, (extend a b).Returns s () t → s.Beyond s.instructions.size a t ∧ s.IsExtended a x y t) := by
  obtain ⟨lost, horderly, -⟩ := hs.exists_orderly
  have hends : (extend a b).Ends s _ _ := ends_extend_beyond (horderly.short b)
  refine ⟨fun e t ht => ?_, fun hpackaged hpackaged' hnested => ?_⟩
  · rw [Ends, ht] at hends
    exact hends
  · have hlib : y.library.IsAligned := hpackaged' ▸ Library.isAligned_packaged
    have hcomplete := ends_extend horderly hx hy hlib (hpackaged.trans hpackaged'.symm) hnested
    have hagree := agree_of_extend hx hy (horderly.names a x hx)
    refine ⟨⟨?_, fun h => ?_⟩, fun t ht => ?_⟩
    · rintro ⟨t, ht⟩
      exact ht.ends.mp hagree
    · obtain ⟨_, t, ht, -⟩ := (hcomplete h).returns
      exact ⟨t, ht⟩
    · exact ⟨ht.ends.mp hends, ht.ends.mp (hcomplete (ht.ends.mp hagree))⟩

/-- Three circuits: the second one has more registers than the first, and it holds twice a gate inside which there is
another one, inverted, controlled and conditioned, and a measurement. The register of the third one is classical in
spite of its name. -/
def joinedCalls : List Call :=
  let q := Argument.bit .single
  let r := Argument.register .lead
  let c := Argument.register .flag
  [.newCircuit none [.register Bit.single.register], .newCircuit none [c, .register Bit.single.register, r],
    .newCircuit none [.register { Bit.single.register with kind := .classical }],
    .newComposite 1 (.datum (.text "g")) [q] (.ok []), .applyGate (.gate 0) "rx" [q] (.ok [.datum (.real (-0.0))]),
    .newComposite 1 (.datum (.text "f")) [q] (.ok []), .attach (.gate 2) 0, .callHelper (.gate 2) "barrier" [q],
    .attach (.circuit 1) 2, .attach (.circuit 1) 2, .control 2 [r], .condition 2 c (.datum (.int 1)), .inverse 2,
    .callHelper (.circuit 1) "measure" [.register Bit.single.register, c]]

/-- The first circuit takes what the second one has, but not what the third one has. -/
theorem outcome_extend_joined :
    let p := joinedCalls.foldl (Store.next .packaged) ({}, [])
    p.1.Arises {.packaged} p.2 ∧ p.1.IsNested 1 ∧
      (∃ x y t, p.1.circuit? 0 = some x ∧ p.1.circuit? 1 = some y ∧ y.data.length = 3 ∧ (extend 0 1).Returns p.1 () t ∧
        p.1.IsExtended 0 x y t) ∧
      ∃ e t, (extend 0 2).outcome p.1 = (.error e, t) ∧ p.1.Unchanged t := by
  have hs := (Store.reachable_foldl .packaged joinedCalls (by decide +kernel)).arises
  have hnested := @Store.isNested_of_flattened (joinedCalls.foldl (Store.next .packaged) ({}, [])).1 1
    (by decide +kernel)
  have hregisters : ((joinedCalls.foldl (Store.next .packaged) ({}, [])).1.circuit? 0).bind (fun x =>
      ((joinedCalls.foldl (Store.next .packaged) ({}, [])).1.circuit? 1).map fun y =>
        decide (Register.Agree x.registers y.registers ∧ y.data.length = 3)) = some true := by decide +kernel
  have hother : ((joinedCalls.foldl (Store.next .packaged) ({}, [])).1.circuit? 2).isSome = true := by decide +kernel
  have hfails : ((extend 0 2).outcome (joinedCalls.foldl (Store.next .packaged) ({}, [])).1).1.toOption = none := by
    decide +kernel
  obtain ⟨x, hx, hagree⟩ := Option.bind_eq_some_iff.mp hregisters
  obtain ⟨y, hy, hagree⟩ := Option.map_eq_some_iff.mp hagree
  obtain ⟨z, hz⟩ := Option.isSome_iff_exists.mp hother
  obtain ⟨lost, horderly, -⟩ := hs.exists_orderly
  obtain ⟨hiff, hextended⟩ := (outcome_extend hs hx hy).2 (horderly.libraries 0 x hx)
    (horderly.libraries 1 y hy) hnested
  obtain ⟨t, ht⟩ := hiff.mpr (of_decide_eq_true hagree).1
  refine ⟨hs, hnested, ⟨x, y, t, hx, hy, (of_decide_eq_true hagree).2, ht, (hextended t ht).2⟩, ?_⟩
  rcases hrun : (extend 0 2).outcome (joinedCalls.foldl (Store.next .packaged) ({}, [])).1 with ⟨_ | _, t⟩
  · exact ⟨_, t, rfl, (outcome_extend hs hx hz).1 _ t hrun⟩
  · rw [hrun] at hfails
    cases hfails

end Action

end QasmCircuit
