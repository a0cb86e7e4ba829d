import QasmCircuit.Proofs.Lowering.Operands

/-!
# What attaching does

On operands that were checked before, the checks of an attachment find nothing more to refuse but a repeated qubit. So
it is known exactly what every application builds: gates of the library, barriers, measurements, and gates with a body
that is still empty.
-/

namespace QasmCircuit

open Outcome List Argument
open Program (valueArguments)

variable {lib : Library} {regs : List Register} {home : CircuitId} {s : Store} {k : Container}
  {is : List InstructionId} {x : Instruction} {i : InstructionId} {xs : List Instruction} {b : Bit}
  {name : String}

/-- A container of a circuit. A gate takes some of the qubits only. -/
def Container.Accepts (s : Store) (home : CircuitId) (takes : Bit → Prop) : Container → Prop
  | .circuit c => c = home
  | .gate i => ∃ x, s.instruction? i = some x ∧ x.circuit = home ∧ x.isComposite ∧ ∀ b, takes b → b.among x.args

/-- A place where instructions on some registers can be attached. -/
structure Store.Site (lib : Library) (regs : List Register) (home : CircuitId) (takes : Bit → Prop) (s : Store)
    (k : Container) : Prop where
  names : (regs.map Register.name).Nodup
  circuit : ∃ c, s.circuit? home = some c ∧ c.registers = regs ∧ c.library = lib
  accepts : k.Accepts s home takes

/-- A new instruction that a container takes, if it does not act on a qubit twice. -/
structure Instruction.Suits (regs : List Register) (home : CircuitId) (takes : Bit → Prop) (k : Container)
    (x : Instruction) : Prop where
  circuit : x.circuit = home
  qubits : ∀ b ∈ x.splitArgs.1, b.IsIn regs .quantum ∧ takes b
  clbits : ∀ b ∈ x.splitArgs.2, b.IsIn regs .classical ∧ k = .circuit home
  controls : x.controls = []
  condition : x.condition = none

namespace Instruction

/-- A gate of a family without modifiers. -/
def gate (home : CircuitId) (f : Family) (values : List Float) (bits : List Bit) : Instruction :=
  { operation := .atomic f, params := values, args := bits, circuit := home }

/-- A barrier. -/
def fence (home : CircuitId) (bits : List Bit) : Instruction := { operation := .barrier, args := bits, circuit := home }

/-- A measurement without a condition. -/
def reading (home : CircuitId) (bits : List Bit) : Instruction :=
  { operation := .measure, args := bits, circuit := home }

/-- A gate with a body that is still empty. -/
def shell (home : CircuitId) (name : String) (values : List Float) (bits : List Bit) : Instruction :=
  { operation := .composite name [] false, params := values, args := bits, circuit := home }

end Instruction

namespace Store

variable {takes : Bit → Prop} {t : Store} {l : Container}

theorem Site.isOld (h : s.Site lib regs home takes k) : k.IsOld s := by
  cases k with
  | circuit c => trivial
  | gate i =>
    obtain ⟨x, hx, -⟩ := h.accepts
    exact instruction?_lt hx

/-- A place stays one while containers are filled. -/
theorem Site.filled (h : s.Site lib regs home takes k) (hst : Filled l is s t) : t.Site lib regs home takes k := by
  obtain ⟨c, hc, hregs, hlib⟩ := h.circuit
  refine ⟨h.names, ⟨_, hst.circuits _ _ hc, hregs, hlib⟩, ?_⟩
  have haccepts := h.accepts
  cases k with
  | circuit d => exact haccepts
  | gate i =>
    obtain ⟨x, hx, hcircuit, hcomposite, htakes⟩ := haccepts
    refine ⟨_, hst.old i x hx, ?_, ?_, ?_⟩
    · rw [Instruction.extended_circuit, hcircuit]
    · rw [Instruction.extended_isComposite, hcomposite]
    · rw [Instruction.extended_args]
      exact htakes

theorem Placed.cons_leaf {P : Instruction → Prop} {m : Nat}
    (hx : t.instruction? i = some x) (hleaf : x.isComposite = false) (hP : P x) (hm : m ≤ i)
    (h : Placed P m t is xs) : Placed P m t (i :: is) (x :: xs) := by
  have hfirst : Placed P m t [i] [x] := .leaf hx hleaf hP hm
  have helement := element_of_leaf hx hleaf
  refine ⟨⟨⟨?_, ?_, ?_⟩, ?_⟩, ?_⟩
  · exact expandAll_append hfirst.expand h.expand
  · rw [flatMap_cons, helement, gatesAt_leaf]
    exact h.once
  all_goals
    intro j hj
    rcases mem_cons.mp hj with rfl | hj
  · exact hfirst.gates j (mem_singleton_self j)
  · exact h.gates j hj
  · exact hfirst.new j (mem_singleton_self j)
  · exact h.new j hj
  · exact hfirst.below j (mem_singleton_self j)
  · exact h.below j hj

end Store

namespace Action

variable {takes : Bit → Prop} {P : Instruction → Prop} {args : List Argument}

/-! ## Checks -/

section

variable (hk : s.Site lib regs home takes k)

include hk

theorem returns_circuitOf : (circuitOf k).Returns s home s := by
  have haccepts := hk.accepts
  cases k with
  | circuit c =>
    cases haccepts
    rfl
  | gate i =>
    obtain ⟨x, hx, rfl, -⟩ := haccepts
    exact (returns_instruction hx).bind rfl

theorem exists_nameOf : ∃ name, (nameOf k).Returns s name s := by
  obtain ⟨c, hc, -⟩ := hk.circuit
  have haccepts := hk.accepts
  cases k with
  | circuit d =>
    cases haccepts
    exact ⟨_, (returns_circuit hc).bind rfl⟩
  | gate i =>
    obtain ⟨x, hx, -⟩ := haccepts
    exact ⟨_, (returns_instruction hx).bind rfl⟩

theorem returns_checkQubit (hb : b.IsIn regs .quantum)
    (htakes : takes b) : (checkQubit k b).Returns s () s := by
  obtain ⟨c, hc, rfl, -⟩ := hk.circuit
  have hcheck : (lift (c.checkQubit (.bit b))).Returns s () s := by
    rw [Circuit.checkQubit, Circuit.checkBit_of_isIn hk.names hb]
    rfl
  refine (returns_circuitOf hk).bind ((returns_circuit hc).bind (hcheck.bind ?_))
  have haccepts := hk.accepts
  cases k with
  | circuit d => rfl
  | gate i =>
    obtain ⟨x, hx, -, -, hamong⟩ := haccepts
    refine (returns_instruction hx).bind ?_
    rw [if_pos (hamong b htakes)]
    rfl

end

theorem returns_checkClbit (hk : s.Site lib regs home takes (.circuit home))
    (hb : b.IsIn regs .classical) : (checkClbit (.circuit home) b).Returns s () s := by
  obtain ⟨c, hc, rfl, -⟩ := hk.circuit
  refine (returns_circuit hc).bind ?_
  rw [Circuit.checkClbit, Circuit.checkBit_of_isIn hk.names hb]
  rfl

/-- The checks before attachment refuse nothing but a repeated qubit. -/
theorem ends_checkInstruction (hk : s.Site lib regs home takes k) (hx : x.Suits regs home takes k) :
    (checkInstruction k x).Ends s (fun _ t => t = s ∧ Bit.distinct x.splitArgs.1)
      fun e _ => e = Fault.of (.semantic (.actsTwice x.name)) ∧ Bit.distinct x.splitArgs.1 = false := by
  obtain ⟨c, hc, -, -⟩ := hk.circuit
  have hcontrolBits : x.controlBits = [] := by
    rw [Instruction.controlBits, hx.controls]
    rfl
  have hqubits : (x.splitArgs.1.forM (checkQubit k)).Returns s () s :=
    returns_forM fun b hb => returns_checkQubit hk (hx.qubits b hb).1 (hx.qubits b hb).2
  have hclbits : (x.splitArgs.2.forM (checkClbit k)).Returns s () s := by
    refine returns_forM fun b hb => ?_
    obtain ⟨hin, rfl⟩ := hx.clbits b hb
    exact returns_checkClbit hk hin
  unfold checkInstruction
  rw [(returns_circuitOf hk).ends_bind, (returns_circuit hc).ends_bind]
  refine ends_ite (fun h => absurd hx.circuit h) fun _ => ?_
  rw [hqubits.ends_bind, hclbits.ends_bind]
  dsimp only
  rw [hcontrolBits, nil_append]
  refine ends_ite (fun h => ?_) fun h => ?_
  · exact ⟨rfl, by simpa using h⟩
  · rw [hx.controls, checkOwnCondition, hx.condition]
    exact ⟨rfl, by simpa using h⟩

/-! ## Single steps -/

theorem ends_append (hk : s.Site lib regs home takes k) (i : InstructionId) : (append k i).Attains s
    fun _ t => Store.Filled k [i] s t ∧ t.instructions.size = s.instructions.size := by
  obtain ⟨c, hc, -⟩ := hk.circuit
  have haccepts := hk.accepts
  cases k with
  | circuit d =>
    cases haccepts
    refine ((returns_circuit hc).ends_bind).mpr (ends_modify.mpr ⟨⟨Nat.le_refl _, fun j x hx => ?_, ?_⟩, rfl⟩)
    · rw [Container.forGate, Instruction.extended_nil]
      exact hx
    · intro e d hd
      show (s.putCircuit home { c with data := c.data ++ [i] }).circuit? e = _
      rw [Store.circuit?_putCircuit hc, Container.forCircuit]
      by_cases he : home = e
      · subst he
        rw [if_pos rfl, if_pos rfl]
        cases hc.symm.trans hd
        rfl
      · rw [if_neg he, if_neg (Ne.symm he), append_nil]
        exact hd
  | gate g =>
    obtain ⟨x, hx, -, hcomposite, -⟩ := haccepts
    obtain ⟨name, body, inverted, hop⟩ := Store.isComposite_iff.mp hcomposite
    refine ((returns_instruction hx).ends_bind).mpr ?_
    rw [hop]
    refine ends_modify.mpr ⟨⟨?_, fun j y hy => ?_, fun c d hd => ?_⟩, ?_⟩
    · rw [Store.put, Array.size_setIfInBounds]
    · rw [Container.forGate]
      by_cases hj : g = j
      · subst hj
        cases hx.symm.trans hy
        rw [if_pos rfl, Store.instruction?_put _ _ _ (Store.instruction?_lt hx), Instruction.extended_of_composite hop]
      · rw [if_neg hj, Store.instruction?_put_ne _ _ _ _ hj, Instruction.extended_nil]
        exact hy
    · rw [Container.forCircuit, append_nil]
      exact hd
    · rw [Store.put, Array.size_setIfInBounds]

variable {values : List Float} {rs : List (List Bit)}

section

variable (hk : s.Site lib regs home takes k)

include hk

theorem ends_attachChecked (hx : s.instruction? i = some x) : (attachChecked k i).Attains s
      fun _ t => Store.Filled k [i] s t ∧ t.instructions.size = s.instructions.size := by
  obtain ⟨name, hname⟩ := exists_nameOf hk
  unfold attachChecked
  refine (returns_instruction hx).ends_bind.mpr (hname.ends_bind.mpr ?_)
  -- A note changes no instruction and no circuit.
  have hnoted : ∀ notes, Store.Site lib regs home takes { s with notes } k :=
    fun _ => ⟨hk.names, hk.circuit, hk.accepts⟩
  refine ends_bind.mpr (ends_modify.mpr ((ends_append (hnoted _) i).map fun _ _ h => ?_))
  exact ⟨⟨h.1.size_le, h.1.old, h.1.circuits⟩, h.2⟩

theorem ends_attach (hx : s.instruction? i = some x) (hsuits : x.Suits regs home takes k) : (attach k i).Ends s
      (fun _ t => Store.Filled k [i] s t ∧ t.instructions.size = s.instructions.size ∧ Bit.distinct x.splitArgs.1)
      fun e _ => e = Fault.of (.semantic (.actsTwice x.name)) ∧ Bit.distinct x.splitArgs.1 = false := by
  unfold attach
  rw [(returns_instruction hx).ends_bind]
  refine (ends_checkInstruction hk hsuits).bind fun _ t ht => ?_
  obtain ⟨rfl, hdistinct⟩ := ht
  exact (ends_attachChecked hk hx).ends fun _ _ h => ⟨h.1, h.2, hdistinct⟩

theorem ends_attachChecked_forM (his : ∀ i ∈ is, ∃ x, s.instruction? i = some x) : (is.forM (attachChecked k)).Attains s
      fun _ t => Store.Filled k is s t ∧ t.instructions.size = s.instructions.size := by
  induction is generalizing s with
  | nil => exact ⟨.refl k s, rfl⟩
  | cons i is ih =>
    rw [forall_mem_cons] at his
    obtain ⟨⟨x, hx⟩, his⟩ := his
    refine (ends_attachChecked hk hx).bind fun _ t ht => ?_
    have hrest := ih (hk.filled ht.1) fun j hj => (his j hj).elim fun y hy => ⟨_, ht.1.old j y hy⟩
    refine hrest.map fun _ u hu => ?_
    exact ⟨ht.1.trans hu.1, hu.2.trans ht.2⟩

end

theorem ends_mapM_create (xs : List Instruction) : (xs.mapM create).Attains s fun is t => s.Adds t ∧
    t.circuits = s.circuits ∧ Forall₂ (fun i x => t.instruction? i = some x ∧ s.instructions.size ≤ i) is xs := by
  induction xs generalizing s with
  | nil => exact ⟨.refl s, rfl, .nil⟩
  | cons x xs ih =>
    rw [mapM_cons]
    have hcreate : (create x).Returns s s.instructions.size (s.push x) := rfl
    refine hcreate.ends_bind.mpr ?_
    refine Ends.bind ih fun is t ht => ?_
    obtain ⟨hadds, hcircuits, hall⟩ := ht
    have hpush := Store.adds_push s x
    refine ⟨hpush.trans hadds, hcircuits, .cons ⟨?_, Nat.le_refl _⟩ (hall.imp fun _ _ h => ⟨h.1, ?_⟩)⟩
    · rw [hadds.old _ (Store.instruction?_lt (s.instruction?_push_self x)), Store.instruction?_push_self]
    · exact hpush.size_le.trans h.2

/-- Instructions are created, and all of them are put into a container. -/
theorem ends_createAll (hk : s.Site lib regs home takes k) (xs : List Instruction) : Attains (do
        let is ← xs.mapM create
        is.forM (attachChecked k)
        pure is) s
      fun is t => Store.Filled k is s t ∧
        Forall₂ (fun i x => t.instruction? i = some x ∧ s.instructions.size ≤ i) is xs := by
  refine (ends_mapM_create xs).bind fun is t ht => ?_
  obtain ⟨hadds, hcircuits, hall⟩ := ht
  have hfilled : Store.Filled k [] s t := .of_adds hadds (fun c d hd => by rw [Store.circuit?, hcircuits]; exact hd) k
  have hthere : ∀ i ∈ is, ∃ x, t.instruction? i = some x := by
    intro i hi
    obtain ⟨x, -, h⟩ := exists_of_forall₂ hall.flip i hi
    exact ⟨x, h.1⟩
  refine (ends_attachChecked_forM (hk.filled hfilled) hthere).bind fun _ u hu => ⟨hfilled.trans hu.1, ?_⟩
  exact hall.imp fun _ _ h => ⟨(hu.1.same hk.isOld h.2 (Store.instruction?_lt h.1)).trans h.1, h.2⟩

/-- Instructions without a body that suit a container are attached to it. -/
theorem ends_attachAll (hk : s.Site lib regs home takes k)
    (hxs : ∀ x ∈ xs, x.Suits regs home takes k ∧ Bit.distinct x.splitArgs.1 ∧ x.isComposite = false ∧ P x) :
    (attachAll k xs).Attains s
      fun is t => Store.Filled k is s t ∧ Store.Placed P s.instructions.size t is xs ∧ is.length = xs.length := by
  have hchecked : (xs.forM (checkInstruction k)).Returns s () s := by
    refine returns_forM fun x hx => ?_
    obtain ⟨hsuits, hdistinct, -⟩ := hxs x hx
    have hends : (checkInstruction k x).Attains s fun _ t => t = s := by
      refine (ends_checkInstruction hk hsuits).imp (fun _ _ h => h.1) fun e t h => ?_
      rw [hdistinct] at h
      cases h.2
    obtain ⟨_, t, hreturns, rfl⟩ := hends.returns
    exact hreturns
  unfold attachAll
  refine hchecked.ends_bind.mpr ?_
  refine (ends_createAll hk xs).map fun is u hu => ⟨hu.1, ?_, hu.2.length_eq⟩
  have hleaf : ∀ x ∈ xs, x.isComposite = false ∧ P x := fun x hx => (hxs x hx).2.2
  clear hxs hchecked
  obtain ⟨-, hall⟩ := hu
  induction hall with
  | nil => exact .nil P _ u
  | @cons i x is xs h _ ih =>
    rw [forall_mem_cons] at hleaf
    exact .cons_leaf h.1 hleaf.1.1 hleaf.1.2 h.2 (ih hleaf.2)

/-! ## Applications -/

theorem ids_applied (h : (∀ r, .register r ∉ args) → is.length = 1) : (applied args is).ids = is := by
  unfold applied
  split
  · next i rest hnone =>
    have hlength := h fun r hr => by
      rw [any_eq_false] at hnone
      exact hnone _ hr rfl
    rw [length_cons, Nat.add_eq_right, length_eq_zero_iff] at hlength
    rw [Applied.ids, hlength]
  · rfl

/-- An application results in one instruction for each row. -/
theorem ids_applied_of_rows? (hrows : rows? args = some rs) (hlength : is.length = rs.length) :
    (applied args is).ids = is := by
  refine ids_applied fun hnone => ?_
  obtain ⟨bits, rfl⟩ := exists_of_rows? hrows hnone
  exact hlength

theorem mapM_finiteParam (name : String) (values : List Float) : (values.all Float.isFinite ∧
      (valueArguments values).mapM (finiteParam name) = .ok values) ∨
    (values.all Float.isFinite = false ∧ ∃ x ∈ values, x.isFinite = false ∧
      (valueArguments values).mapM (finiteParam name) =
        .error (Fault.of (.semantic (.paramKind name (Decimal.text x))))) := by
  induction values with
  | nil => exact .inl ⟨rfl, rfl⟩
  | cons x rest ih =>
    have hhead : finiteParam name (.datum (.real x)) =
        if x.isFinite then .ok x else fail (.semantic (.paramKind name (Decimal.text x))) := rfl
    rw [valueArguments, map_cons, mapM_cons, hhead, all_cons]
    cases hx : x.isFinite with
    | false => exact .inr ⟨rfl, x, mem_cons_self, hx, rfl⟩
    | true =>
      rw [if_pos rfl, Bool.true_and]
      rcases ih with ⟨hall, hrest⟩ | ⟨hall, y, hy, hinfinite, hrest⟩
      · exact .inl ⟨hall, bind_eq_ok.mpr ⟨x, rfl, bind_eq_ok.mpr ⟨rest, hrest, rfl⟩⟩⟩
      · refine .inr ⟨hall, y, mem_cons_of_mem x hy, hinfinite, ?_⟩
        show (Except.ok x >>= fun b => _ >>= fun bs => pure (b :: bs)) = _
        rw [valueArguments] at hrest
        rw [hrest]
        rfl

/-- A gate of the library is applied to all rows, unless a parameter is not finite. -/
theorem ends_applyGate (hk : s.Site lib regs home takes k) {f : Family}
    (hf : lib.find? name = some f) (hcount : values.length = f.params.length) (harity : (args.length : Int) = f.arity)
    (hargs : ∀ a ∈ args, a.IsOperand regs .quantum ∧ ∀ b ∈ a.bits, takes b) (hapart : args.Pairwise Apart)
    (hrows : rows? args = some rs) (hP : ∀ bits ∈ rs, P (.gate home f values bits)) :
    (applyGate k name args (.ok (valueArguments values))).Ends s
      (fun v t => values.all Float.isFinite ∧ Store.Filled k v.ids s t ∧
        Store.Placed P s.instructions.size t v.ids (rs.map (.gate home f values)))
      fun e _ => values.all Float.isFinite = false ∧ ∃ x ∈ values, x.isFinite = false ∧
        e = Fault.of (.semantic (.paramKind f.name (Decimal.text x))) := by
  obtain ⟨c, hc, rfl, rfl⟩ := hk.circuit
  have hlength : ¬ (valueArguments values).length ≠ f.params.length := by
    rw [valueArguments, length_map, not_not, hcount]
  have hparams : ((Except.ok (valueArguments values) : Except Fault _) >>= checkParams f) =
      (valueArguments values).mapM (finiteParam f.name) := if_neg hlength
  have hlookup := returns_lift s (Library.lookup_eq_ok.mpr hf)
  have hbroadcast := returns_lift s
    (broadcast_of_rows? hk.names (fun a ha => ⟨.quantum, by decide, (hargs a ha).1⟩) hrows name)
  unfold applyGate
  rw [(returns_circuitOf hk).ends_bind, (returns_circuit hc).ends_bind, hlookup.ends_bind, hparams]
  rcases mapM_finiteParam f.name values with ⟨hall, hvalues⟩ | ⟨hall, x, hx, hinfinite, hvalues⟩
  · rw [hvalues]
    have hvalues' : (lift (.ok values)).Returns s values s := rfl
    rw [hvalues'.ends_bind]
    refine ends_ite (fun h => absurd harity h) fun _ => ?_
    rw [hbroadcast.ends_bind]
    refine Ends.bind ((ends_attachAll (P := P) hk fun x hx => ?_).ends fun _ _ h => h) fun is t ht => ?_
    · obtain ⟨bits, hbits, rfl⟩ := mem_map.mp hx
      obtain ⟨index, hindex⟩ := mapM_bitAt?_of_mem_rows? hrows bits hbits
      refine ⟨⟨rfl, fun b hb => ?_, forall_mem_nil _, rfl, rfl⟩, ?_, rfl, hP bits hbits⟩
      · obtain ⟨a, ha, hab⟩ := exists_of_forall₂ (mapM_eq_some.mp hindex) b hb
        have hmem := mem_bits_of_bitAt? hab
        exact ⟨isIn_of_mem_bits (hargs a ha).1 hmem, (hargs a ha).2 b hmem⟩
      · exact distinct_of_mapM_bitAt? hapart hindex
    · obtain ⟨hfilled, hplaced, hlength⟩ := ht
      rw [ends_pure, ids_applied_of_rows? hrows (hlength.trans (length_map _))]
      exact ⟨hall, hfilled, hplaced⟩
  · rw [hvalues]
    exact ends_bind.mpr (ends_throw.mpr ⟨hall, x, hx, hinfinite, rfl⟩)

/-- A barrier is placed, unless it names a register with too many qubits or a qubit twice. -/
theorem ends_barrier (hk : s.Site lib regs home takes k) (hne : args ≠ [])
    (hargs : ∀ a ∈ args, a.IsOperand regs .quantum ∧ ∀ b ∈ a.bits, takes b)
    (hP : P (.fence home (args.flatMap Argument.bits))) : (barrier k args).Ends s
      (fun i t => args.all Argument.isListable ∧ Bit.distinct (args.flatMap Argument.bits) ∧ Store.Filled k [i] s t ∧
        Store.Placed P s.instructions.size t [i] [.fence home (args.flatMap Argument.bits)])
      fun e _ => (args.all Argument.isListable = false ∧ e = .tooLarge) ∨
        Bit.distinct (args.flatMap Argument.bits) = false ∧ e = Fault.of (.semantic (.actsTwice "barrier")) := by
  obtain ⟨c, hc, rfl, rfl⟩ := hk.circuit
  have hgather := gatherQubits_of_isOperand hk.names (fun a ha => (hargs a ha).1) fun shown =>
    .semantic (.barrierOperandKind shown)
  have hempty : ¬ (args.flatMap Argument.bits).isEmpty := by
    rw [List.isEmpty_iff, flatMap_eq_nil_iff]
    intro hnil
    obtain ⟨a, ha⟩ := exists_mem_of_ne_nil args hne
    have hoperand := (hargs a ha).1
    have hbits := hnil a ha
    cases a with
    | bit b => cases hbits
    | register r =>
      have hsize := congrArg List.length hbits
      rw [Argument.bits, Register.length_bits] at hsize
      exact r.size_pos.ne' hsize
    | _ => exact hoperand
  have hargs' : ¬ args.isEmpty := fun h => hne (List.isEmpty_iff.mp h)
  have hcreate : (create (.fence home (args.flatMap Argument.bits))).Returns s s.instructions.size
      (s.push (.fence home (args.flatMap Argument.bits))) := rfl
  have hadds := s.adds_push (.fence home (args.flatMap Argument.bits))
  have hfilled : Store.Filled k [] s (s.push (.fence home (args.flatMap Argument.bits))) :=
    .of_adds hadds (fun _ _ hd => hd) k
  have hx := s.instruction?_push_self (.fence home (args.flatMap Argument.bits))
  unfold barrier
  rw [(returns_circuitOf hk).ends_bind, (returns_circuit hc).ends_bind]
  dsimp only
  rw [if_neg hargs']
  refine ends_bind.mpr (ends_pure.mpr ?_)
  rw [hgather]
  cases hlistable : args.all Argument.isListable with
  | false => exact ends_bind.mpr (ends_throw.mpr (.inl ⟨rfl, rfl⟩))
  | true => ?_
  rw [if_pos rfl]
  refine (returns_lift s rfl).ends_bind.mpr (ends_ite (fun h => absurd h hempty) fun _ => ?_)
  refine hcreate.ends_bind.mpr (Ends.bind ((ends_attach (hk.filled hfilled) hx ?_).imp (fun _ _ h => h) fun _ _ h => ?_)
    fun _ t ht => ?_)
  · refine ⟨rfl, fun b hb => ?_, forall_mem_nil _, rfl, rfl⟩
    obtain ⟨a, ha, hab⟩ := mem_flatMap.mp hb
    exact ⟨isIn_of_mem_bits (hargs a ha).1 hab, (hargs a ha).2 b hab⟩
  · exact .inr ⟨h.2, h.1⟩
  · obtain ⟨hattached, -, hdistinct⟩ := ht
    have hsame := hattached.same hk.isOld (Nat.le_refl _) (Store.instruction?_lt hx)
    exact ⟨rfl, hdistinct, hfilled.trans hattached, .leaf (hsame.trans hx) rfl hP (Nat.le_refl _)⟩

/-- A measurement is made in all rows. -/
theorem ends_measure (hk : s.Site lib regs home (fun _ => True) (.circuit home)) {qubit clbit : Argument}
    (hqubit : qubit.IsOperand regs .quantum) (hclbit : clbit.IsOperand regs .classical)
    (hrows : rows? [qubit, clbit] = some rs) (hP : ∀ bits ∈ rs, P (.reading home bits)) :
    (measure (.circuit home) qubit clbit).Attains s fun v t => Store.Filled (.circuit home) v.ids s t ∧
        Store.Placed P s.instructions.size t v.ids (rs.map (.reading home)) := by
  obtain ⟨c, hc, rfl, rfl⟩ := hk.circuit
  have hbroadcast : (lift (broadcast c "measure" [qubit, clbit])).Returns s rs s := by
    rw [broadcast_of_rows? hk.names ?_ hrows]
    · rfl
    · rw [forall_mem_cons, forall_mem_singleton]
      exact ⟨⟨.quantum, by decide, hqubit⟩, .classical, by decide, hclbit⟩
  refine (returns_circuit hc).ends_bind.mpr (hbroadcast.ends_bind.mpr ?_)
  refine Ends.bind (ends_attachAll (P := P) hk fun x hx => ?_) fun is t ht => ?_
  · obtain ⟨bits, hbits, rfl⟩ := mem_map.mp hx
    obtain ⟨index, hindex⟩ := mapM_bitAt?_of_mem_rows? hrows bits hbits
    rw [mapM_eq_some] at hindex
    cases hindex with
    | cons hq hrest =>
      cases hrest with
      | cons hcl hnil =>
        cases hnil
        refine ⟨⟨rfl, ?_, ?_, rfl, rfl⟩, rfl, rfl, hP _ hbits⟩
        · exact fun b hb => ⟨mem_singleton.mp hb ▸ isIn_of_mem_bits hqubit (mem_bits_of_bitAt? hq), trivial⟩
        · exact fun b hb => ⟨mem_singleton.mp hb ▸ isIn_of_mem_bits hclbit (mem_bits_of_bitAt? hcl), rfl⟩
  · obtain ⟨hfilled, hplaced, hlength⟩ := ht
    rw [ends_pure, ids_applied_of_rows? hrows (hlength.trans (length_map _))]
    exact ⟨hfilled, hplaced⟩

/-- A gate with an empty body is made, unless its name is no identifier. -/
theorem ends_newComposite_of_bits {bits : List Bit} (hnames : (regs.map Register.name).Nodup)
    (hcircuit : ∃ c, s.circuit? home = some c ∧ c.registers = regs ∧ c.library = lib)
    (hfree : lib.contains name = false) (hne : bits ≠ []) (hbits : ∀ b ∈ bits, b.IsIn regs .quantum)
    (hdistinct : Bit.distinct bits) :
    (newComposite home (.datum (.text name)) (bits.map .bit) (.ok (valueArguments values))).Ends s
      (fun i t => isIdentifier name ∧ i = s.instructions.size ∧ t = s.push (.shell home name values bits))
      fun e _ => isIdentifier name = false ∧ e = Fault.of (.semantic (.invalidName (Datum.text name).shown)) := by
  obtain ⟨c, hc, rfl, rfl⟩ := hcircuit
  have hvalues : ((Except.ok (valueArguments values) : Except Fault _) >>= fun ps => ps.mapM Argument.toReal) =
      .ok values := by
    show (valueArguments values).mapM Argument.toReal = .ok values
    rw [mapM_eq_ok, valueArguments, forall₂_map_left_iff, forall₂_same]
    exact fun _ _ => rfl
  unfold newComposite
  rw [(returns_circuit hc).ends_bind, gateName]
  cases hname : isIdentifier name with
  | false => exact ends_bind.mpr (ends_throw.mpr ⟨rfl, rfl⟩)
  | true =>
    have hlift : (lift (.ok name)).Returns s name s := rfl
    rw [if_pos rfl, hlift.ends_bind, hfree]
    have hargs := returns_lift s (gateArgs_of_bits hnames hne hbits hdistinct name)
    refine hargs.ends_bind.mpr ?_
    rw [hvalues]
    exact ⟨rfl, rfl, rfl⟩

end Action

end QasmCircuit
