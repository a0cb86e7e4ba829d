import QasmCircuit.Circuit.Extend
import QasmCircuit.Proofs.Circuit.Modify

/-!
# Joining keeps stores sound

An instruction that is applied again is new, and so is all that is inside it. While its body is built nobody
holds it, so that its modifiers may be written without a check (`Store.Orderly.push_loose`); the check comes when
it is attached.

An extension that fails gives the circuit its old registers and instructions back. What it has built by then is
left behind, on registers that may be gone: it is lost. Since nothing older was changed (`Store.Beyond`), the rest
of the store is as sound as it was.
-/

namespace QasmCircuit

open Outcome Relation

variable {libs : Set Library} {lost loose : Set InstructionId} {s t : Store} {n : Nat} {c : CircuitId}
  {i : InstructionId}

namespace Store

variable {u : Store}

/-- What was built while a new instruction was loose has only grown. -/
theorem Grows.settle (h : s.Grows (insert s.instructions.size loose) t) : s.Grows loose t where
  circuits := h.circuits
  instructions i x hx := by
    obtain ⟨y, hy, hxy, hfits⟩ := h.instructions i x hx
    refine ⟨y, hy, hxy, fun hi => hfits ?_⟩
    rintro (rfl | hmem)
    · exact Nat.lt_irrefl _ (instruction?_lt hx)
    · exact hi hmem

/-! ## What a failed extension leaves as it was -/

/-- All is as it was but the instructions from a number on, and the members and registers of a circuit. -/
structure Beyond (n : Nat) (c : CircuitId) (s t : Store) : Prop where
  instructions : ∀ i < n, t.instruction? i = s.instruction? i
  circuits : ∀ d, d ≠ c → t.circuit? d = s.circuit? d
  circuit : ∀ x, s.circuit? c = some x → ∃ y, t.circuit? c = some y ∧ y.name = x.name ∧ y.library = x.library

namespace Beyond

variable {x y : Circuit}

theorem refl (n : Nat) (c : CircuitId) (s : Store) : Beyond n c s s :=
  ⟨fun _ _ => rfl, fun _ _ => rfl, fun x hx => ⟨x, hx, rfl, rfl⟩⟩

theorem trans (hst : Beyond n c s t) (htu : Beyond n c t u) : Beyond n c s u where
  instructions i hi := (htu.instructions i hi).trans (hst.instructions i hi)
  circuits d hd := (htu.circuits d hd).trans (hst.circuits d hd)
  circuit x hx := by
    obtain ⟨y, hy, hname, hlibrary⟩ := hst.circuit x hx
    obtain ⟨z, hz, hname', hlibrary'⟩ := htu.circuit y hy
    exact ⟨z, hz, hname'.trans hname, hlibrary'.trans hlibrary⟩

theorem le_size (h : Beyond n c s t) (hn : n ≤ s.instructions.size) : n ≤ t.instructions.size := by
  cases n with
  | zero => exact Nat.zero_le _
  | succ n =>
    have hlast := h.instructions n (Nat.lt_succ_self n)
    rw [instruction?, instruction?, Array.getElem?_eq_getElem (Nat.lt_of_succ_le hn)] at hlast
    exact (Array.getElem?_eq_some_iff.mp hlast).1

theorem of_circuits (hinstructions : ∀ i < n, t.instruction? i = s.instruction? i)
    (hcircuits : t.circuits = s.circuits) : Beyond n c s t := by
  have heq : ∀ d, t.circuit? d = s.circuit? d := by
    intro d
    rw [circuit?, hcircuits, circuit?]
  exact ⟨hinstructions, fun d _ => heq d, fun x hx => ⟨x, (heq c).trans hx, rfl, rfl⟩⟩

theorem push (hn : n ≤ s.instructions.size) (x : Instruction) : Beyond n c s (s.push x) := by
  refine of_circuits (fun i hi => ?_) rfl
  rw [instruction?_push, if_neg (Nat.ne_of_lt (Nat.lt_of_lt_of_le hi hn))]

theorem put {x y : Instruction} (hx : s.instruction? i = some x) (hi : n ≤ i) :
    Beyond n c s (s.put i y) := by
  refine of_circuits (fun k hk => ?_) rfl
  rw [instruction?_put_of_some hx, if_neg (Nat.ne_of_lt (Nat.lt_of_lt_of_le hk hi))]

theorem putCircuit (hx : s.circuit? c = some x) (hname : y.name = x.name) (hlibrary : y.library = x.library) :
    Beyond n c s (s.putCircuit c y) := by
  refine ⟨fun _ _ => rfl, fun d hd => ?_, fun z hz => ?_⟩
  · rw [circuit?_putCircuit hx, if_neg hd]
  · cases hx.symm.trans hz
    exact ⟨y, by rw [circuit?_putCircuit hx, if_pos rfl], hname, hlibrary⟩

theorem of_frame {P : InstructionId → Prop} (h : Frame P s t) (hP : ∀ k, P k → n ≤ k) : Beyond n c s t :=
  of_circuits (fun i hi => h.others i fun hp => Nat.lt_irrefl _ (Nat.lt_of_lt_of_le hi (hP i hp))) h.circuits

/-- Once the circuit has its registers and members back, all circuits are as they were. -/
theorem circuit?_revert (h : Beyond n c s t) (hx : s.circuit? c = some x) (hy : t.circuit? c = some y) (d : CircuitId) :
    (t.putCircuit c { y with registers := x.registers, data := x.data }).circuit? d = s.circuit? d := by
  have hold : { y with registers := x.registers, data := x.data } = x := by
    obtain ⟨z, hz, hname, hlibrary⟩ := h.circuit x hx
    cases hy.symm.trans hz
    cases x
    cases y
    cases hname
    cases hlibrary
    rfl
  rw [hold, circuit?_putCircuit hy]
  split
  · next hd => rw [hd, hx]
  · next hd => exact h.circuits d hd

/-- Once the circuit has its registers and members back, only the new instructions are lost. -/
theorem orderly_revert (hs : s.Orderly libs lost loose) (ht : t.Orderly libs lost loose)
    (h : Beyond s.instructions.size c s t) (hx : s.circuit? c = some x) (hy : t.circuit? c = some y) :
    (t.putCircuit c { y with registers := x.registers, data := x.data }).Orderly libs
      (lost ∪ {i | s.instructions.size ≤ i ∧ i < t.instructions.size}) loose := by
  have hcircuit := h.circuit?_revert hx hy
  have hinstruction : ∀ {i}, i ∉ lost ∪ {i | s.instructions.size ≤ i ∧ i < t.instructions.size} →
      ∀ {z}, (t.putCircuit c { y with registers := x.registers, data := x.data }).instruction? i = some z →
      i ∉ lost ∧ s.instruction? i = some z := by
    intro i hi z hz
    have hlt : i < s.instructions.size := by
      by_contra hle
      exact hi (.inr ⟨Nat.not_lt.mp hle, instruction?_lt hz⟩)
    exact ⟨fun hmem => hi (.inl hmem), (h.instructions i hlt).symm.trans hz⟩
  have hmember : ∀ {d i}, s.Member lost loose d i →
    (t.putCircuit c { y with registers := x.registers, data := x.data }).Member
      (lost ∪ {i | s.instructions.size ≤ i ∧ i < t.instructions.size}) loose d i := by
    rintro d i ⟨hkept, hready, z, hz, hd, e, he, hfits⟩
    have hlt := instruction?_lt hz
    refine ⟨?_, hready, z, (h.instructions i hlt).trans hz, hd, e, (hcircuit _).trans he, hfits⟩
    rintro (hmem | hmem)
    · exact hkept hmem
    · exact Nat.lt_irrefl _ (Nat.lt_of_lt_of_le hlt hmem.1)
  have hsize : s.instructions.size ≤ t.instructions.size := h.le_size (Nat.le_refl _)
  refine ⟨?_, ?_, ht.inside_lt, ht.finite, ?_, ?_, ?_, ?_, ?_, ?_⟩
  · rintro i (hi | hi)
    · exact Nat.lt_of_lt_of_le (hs.lost_lt i hi) hsize
    · exact hi.2
  · exact fun i hi => Nat.lt_of_lt_of_le (hs.loose_lt i hi) hsize
  · exact fun d z hz => hs.libraries d z ((hcircuit d).symm.trans hz)
  · exact fun d z hz => hs.names d z ((hcircuit d).symm.trans hz)
  · exact fun d z hz => hs.short d z ((hcircuit d).symm.trans hz)
  · exact fun d z hz i hi => hmember (hs.data d z ((hcircuit d).symm.trans hz) i hi)
  · intro i z hi hz
    obtain ⟨hkept, hz⟩ := hinstruction hi hz
    have hformed := hs.formed i z hkept hz
    refine ⟨hformed.proper, fun hbarrier hmeasure => ?_, hformed.finite⟩
    obtain ⟨e, he, hnative⟩ := hformed.home hbarrier hmeasure
    exact ⟨e, (hcircuit _).trans he, hnative⟩
  · intro i z hi hz j hj
    obtain ⟨hkept, hz⟩ := hinstruction hi hz
    have hpart := hs.body i z hkept hz j hj
    obtain ⟨w, hw, hscope⟩ := hpart.scope
    exact ⟨hmember hpart.toMember, w, (h.instructions j (instruction?_lt hw)).trans hw, hscope⟩

end Beyond

end Store

/-- A container that is new, or the circuit that is extended. -/
def Container.IsBeyond (n : Nat) (c : CircuitId) : Container → Prop
  | .circuit d => d = c
  | .gate g => n ≤ g

namespace Action

variable {α β : Type}

/-- A step that leaves all that is older as it was, and whose value satisfies `Q` if it returns one. -/
def Spares (n : Nat) (c : CircuitId) (a : Action α) (s : Store) (Q : α → Store → Prop) : Prop :=
  a.Ends s (fun v t => s.Beyond n c t ∧ Q v t) fun _ t => s.Beyond n c t

variable {Q Q' : α → Store → Prop} {R : β → Store → Prop} {a : Action α} {f : α → Action β} {x : Instruction}
  {k : Container}

theorem spares_pure {v : α} (h : Q v s) : (pure v : Action α).Spares n c s Q := ⟨.refl n c s, h⟩

theorem spares_throw {e : Fault} : (throw e : Action α).Spares n c s Q := ends_throw.mpr (.refl n c s)

theorem Spares.bind (ha : a.Spares n c s Q) (hf : ∀ v t, s.Beyond n c t → Q v t → (f v).Spares n c t R) :
    (a >>= f).Spares n c s R := by
  refine Action.ends_bind.mpr (Ends.map ha ?_)
  rintro v t ⟨hst, hv⟩
  exact Ends.imp (hf v t hst hv) (fun _ _ hu => ⟨hst.trans hu.1, hu.2⟩) fun _ _ hu => hst.trans hu

theorem Reads.spares_bind {P : α → Prop} (ha : a.Reads s P) (hf : ∀ v, P v → (f v).Spares n c s R) :
    (a >>= f).Spares n c s R :=
  ha.ends_bind (fun _ => .refl n c s) hf

theorem spares_forM {γ : Type} {f : γ → Action PUnit} {as : List γ}
    (h : ∀ a ∈ as, ∀ t, s.Beyond n c t → (f a).Spares n c t fun _ _ => True) :
    (as.forM f).Spares n c s fun _ _ => True := by
  refine (ends_forM (I := fun t => s.Beyond n c t) (fun a ha t hst => ?_) (.refl n c s)).map fun _ _ ht => ⟨ht, trivial⟩
  exact Ends.imp (h a ha t hst) (fun _ _ hu => hst.trans hu.1) fun _ _ hu => hst.trans hu

theorem spares_create (hn : n ≤ s.instructions.size) :
    (create x).Spares n c s fun j t => n ≤ j ∧ t.instruction? j = some x :=
  ends_modifyGet.mpr ⟨.push hn x, hn, s.instruction?_push_self x⟩

variable {y : Instruction} {j : InstructionId} {again : InstructionId → Container → Action InstructionId}
  {regs : List Argument}

theorem spares_put (hx : s.instruction? i = some x) (hi : n ≤ i) : (put i y).Spares n c s fun _ _ => True :=
  ends_modify.mpr ⟨.put hx hi, trivial⟩

theorem spares_append (hk : k.IsBeyond n c) : (append k i).Spares n c s fun _ _ => True := by
  cases k with
  | circuit d =>
    cases hk
    refine reads_circuit.spares_bind fun x hx => ends_modify.mpr ⟨?_, trivial⟩
    exact Store.Beyond.putCircuit (y := { x with data := x.data ++ [i] }) hx rfl rfl
  | gate g =>
    refine reads_instruction.spares_bind fun x hx => ?_
    split
    · exact spares_put hx hk
    · exact spares_throw

theorem spares_attach (hk : k.IsBeyond n c) : (attach k i).Spares n c s fun _ _ => True := by
  refine reads_instruction.spares_bind fun x _ => (reads_checkInstruction k x).spares_bind fun _ _ => ?_
  refine reads_instruction.spares_bind fun y _ => (reads_nameOf k).spares_bind fun name _ => ?_
  have hnote : (note s!"Attaching {y.name} to {name}").Spares n c s fun _ _ => True :=
    ends_modify.mpr ⟨.of_circuits (fun _ _ => rfl) rfl, trivial⟩
  exact hnote.bind fun _ t _ _ => spares_append hk

/-- Modifiers of an instruction without members change nothing else. -/
theorem spares_applyModifiers (hj : n ≤ j) (hy : s.instruction? j = some y)
    (hleaf : y.inside = []) : (applyModifiers x j).Spares n c s fun _ _ => True := by
  have hcone : ∀ {t : Store}, t.shape j = s.shape j → ∀ k, ReflTransGen t.Holds j k → n ≤ k := by
    intro t hshape k hk
    rcases ReflTransGen.cases_head hk with rfl | ⟨m, ⟨p, hp, hmem, -⟩, -⟩
    · exact hj
    · rw [hshape, Store.shape, hy, Option.map_some, hleaf] at hp
      cases hp
      exact absurd hmem List.not_mem_nil
  have hcondition : ∀ m t r v, t.shape j = s.shape j →
      (condition m j r v).Spares n c t fun _ _ => True := fun m t r v hshape =>
    (frame_condition m j r v t).imp (fun _ _ hu => ⟨.of_frame hu (hcone hshape), trivial⟩)
      fun _ _ hu => .of_frame hu (hcone hshape)
  refine reads_depth.spares_bind fun m _ => ?_
  have hcontrol : (control m j (x.controls.map .register)).Spares n c s fun _ t => t.shape j = s.shape j :=
    (frame_control m j _ s).imp (fun _ _ ht => ⟨.of_frame ht (hcone rfl), congrFun ht.shape j⟩)
      fun _ _ ht => .of_frame ht (hcone rfl)
  refine ends_ite (fun _ => hcontrol.bind fun _ t _ hshape => ?_) fun _ => ?_
  · split
    · exact spares_pure trivial
    · exact hcondition m t _ _ hshape
  · split
    · exact spares_pure trivial
    · exact hcondition m s _ _ rfl

/-- What is applied again is new. -/
theorem spares_renew
    (hagain : ∀ k j t, n ≤ t.instructions.size → n ≤ j → (again k (.gate j)).Spares n c t fun _ _ => True)
    (i : InstructionId) (home : CircuitId) (hn : n ≤ s.instructions.size) :
    (renew again i home).Spares n c s fun _ _ => True := by
  have hleaf : ∀ x y : Instruction, y.inside = [] → (do
      let j ← create y
      applyModifiers x j
      pure j).Spares n c s fun _ _ => True := fun x y hy =>
    (spares_create hn).bind fun j t _ hj => (spares_applyModifiers hj.1 hj.2 hy).bind fun _ _ _ _ =>
      spares_pure trivial
  refine reads_instruction.spares_bind fun x _ => ?_
  split
  · exact Ends.map (spares_create hn) fun _ _ ht => ⟨ht.1, trivial⟩
  · exact hleaf x _ rfl
  · exact reads_circuit.spares_bind fun d _ => reads_lift.spares_bind fun g _ => hleaf x _ rfl
  · next name body inverted _ =>
    have hnew : (newComposite home (.datum (.text name)) (x.args.map .bit)
        (.ok (x.params.map fun p => Argument.datum (.real p)))).Spares n c s fun j _ => n ≤ j := by
      refine ends_newComposite.imp ?_ ?_
      · rintro j t ⟨rfl, y, gate, d, rfl, -⟩
        exact ⟨.push hn y, hn⟩
      · rintro e t rfl
        exact .refl n c t
    refine hnew.bind fun j t hst hj => ?_
    have hloop : (body.forM fun k => do
        let _ ← again k (.gate j)).Spares n c t fun _ _ => True :=
      spares_forM fun k _ u htu => (hagain k j u (htu.le_size (hst.le_size hn)) hj).bind fun _ _ _ _ =>
        spares_pure trivial
    refine hloop.bind fun _ u _ _ => reads_instruction.spares_bind fun y hy => ?_
    refine Reads.spares_bind (P := fun _ => True) ?_ fun built _ => ?_
    · refine reads_instruction.bind fun z _ => ?_
      split
      · exact reads_pure trivial
      · exact reads_throw
    · exact (spares_put hy hj).bind fun _ _ _ _ => spares_pure trivial

theorem spares_reapply (depth : Nat) (i : InstructionId) (hk : k.IsBeyond n c) (hn : n ≤ s.instructions.size) :
    (reapply depth i k).Spares n c s fun _ _ => True := by
  induction depth generalizing i k s with
  | zero => exact spares_throw
  | succ depth ih =>
    refine (reads_circuitOf k).spares_bind fun home _ => ?_
    refine (spares_renew (fun m j t ht hj => ih m hj ht) i home hn).bind fun j t _ _ => ?_
    exact (spares_attach hk).bind fun _ _ _ _ => spares_pure trivial

/-! ## Applying again -/

theorem safe_applyModifiers (hs : s.Orderly libs lost loose) (hj : j ∉ lost) :
    (applyModifiers x j).Safe libs lost loose s fun _ _ => True := by
  refine reads_depth.safe_bind hs fun m _ => ?_
  refine safe_ite (fun _ => (safe_control m hs hj).bind fun _ t ht _ _ => ?_) fun _ => ?_
  · split
    · exact safe_pure ht trivial
    · exact safe_condition m ht hj
  · split
    · exact safe_pure hs trivial
    · exact safe_condition m hs hj

/-- What was done while a new instruction was loose is safe. -/
theorem Safe.settle (h : a.Safe libs lost (insert s.instructions.size loose) (s.push x) Q) :
    a.Ends (s.push x) (fun v t => t.Orderly libs lost loose ∧ s.Grows loose t ∧ Q v t)
      fun _ t => t.Orderly libs lost loose ∧ s.Grows loose t := by
  have hgrows : ∀ {t : Store}, (s.push x).Grows (insert s.instructions.size loose) t → s.Grows loose t := fun ht =>
    ((Store.Grows.push s x).trans ht).settle
  refine Ends.imp h ?_ ?_
  · rintro v t ⟨ht, hst, hv⟩
    exact ⟨ht.settle (Set.subset_insert _ _), hgrows hst, hv⟩
  · rintro e t ⟨ht, hst⟩
    exact ⟨ht.settle (Set.subset_insert _ _), hgrows hst⟩

/-- The new instruction is not held by anything yet. -/
theorem safe_renew
    (hagain : ∀ {k g t} {loose : Set InstructionId}, t.Orderly libs lost loose → k ∉ lost → g ∉ lost →
      (again k (.gate g)).Safe libs lost loose t fun _ _ => True)
    {home : CircuitId} (hs : s.Orderly libs lost loose) (hi : i ∉ lost) :
    (renew again i home).Safe libs lost loose s fun j t => t.Known lost j ∧ j ∉ loose := by
  have hleaf : ∀ x y : Instruction, s.Formed libs y → y.inside = [] → (do
      let j ← create y
      applyModifiers x j
      pure j).Safe libs lost loose s fun j t => t.Known lost j ∧ j ∉ loose := by
    intro x y hy hinside
    refine (safe_create hs hy (by rw [hinside]; exact List.forall_mem_nil _)).bind ?_
    rintro j t ht - ⟨rfl, rfl⟩
    exact (safe_applyModifiers ht hs.size_not_mem.1).bind fun _ u hu htu _ =>
      safe_pure hu ⟨(hs.known_push y).mono htu, hs.size_not_mem.2⟩
  refine reads_instruction.safe_bind hs fun x hx => ?_
  have hformed := hs.formed i x hi hx
  split
  · next hop =>
    have hnew : s.Formed libs { operation := .barrier, args := x.args, circuit := home } := by
      refine Store.formed_of_no_gate rfl fun lib => ?_
      have hproper := hformed.isProper (by rw [Instruction.isAtomic, hop]) lib
      rw [Instruction.IsProper, hop] at hproper
      exact ⟨hproper.1, rfl, rfl, rfl⟩
    refine (safe_create hs hnew (List.forall_mem_nil _)).imp ?_
    rintro j t ⟨rfl, rfl⟩
    exact ⟨hs.known_push _, hs.size_not_mem.2⟩
  · next hop =>
    have hlength : x.args.length = 2 := length_of_formed hformed hop
    exact hleaf x { operation := .measure, args := x.args, circuit := home }
      (Store.formed_of_no_gate rfl fun _ => ⟨hlength, rfl, rfl⟩) rfl
  · next f hop =>
    refine reads_circuit.safe_bind hs fun d hd => reads_lift.safe_bind hs fun g hg => ?_
    rw [Library.lookup_eq_ok] at hg
    refine hleaf x { operation := .atomic g, params := x.params, args := x.args, circuit := home } ?_ rfl
    refine ⟨fun lib hlib => ?_, fun _ _ => ⟨d, hd, Library.find?_name hg, fun _ => rfl⟩, fun _ =>
      hformed.finite (by rw [Instruction.isAtomic, hop])⟩
    -- In the shared library the family is the one that the gate already has.
    have hproper := hformed.proper lib fun _ => hlib rfl
    have hlibrary : d.library = lib := Set.mem_singleton_iff.mp ((hlib rfl).1 ▸ hs.libraries home d hd)
    rw [Instruction.IsProper, hop] at hproper
    rw [hlibrary, hproper.1] at hg
    cases hg
    exact ⟨hproper.1, hproper.2.1, hproper.2.2.1, hproper.2.2.2.1, fun _ => rfl⟩
  · next name body inverted hop =>
    have hbody := hs.part hi hx hop
    refine ends_bind.mpr (ends_newComposite.imp ?_ ?_)
    · rintro j t ⟨rfl, y, gate, d, rfl, rfl, hyop, hargs, hgate, hd, hname, hfree⟩
      cases hgate
      have hloose : (s.push y).Orderly libs lost (insert s.instructions.size loose) := by
        refine hs.push_loose ?_ ?_
        · exact Store.formed_of_composite hyop hargs hd hname hfree
        · rw [Instruction.inside, hyop]
          exact List.forall_mem_nil _
      -- The body is built, and the modifiers are written, while the gate is loose.
      refine Safe.settle ?_
      have hloop : (body.forM fun k => do
          let _ ← again k (.gate s.instructions.size)).Safe libs lost (insert s.instructions.size loose)
          (s.push y) fun _ _ => True :=
        safe_forM hloose fun k hk u hu _ => (hagain hu (hbody k hk).kept hs.size_not_mem.1).bind
          fun _ v hv _ _ => safe_pure hv trivial
      refine hloop.bind fun _ u hu hgrows _ => reads_instruction.safe_bind hu fun z hz => ?_
      refine Reads.safe_bind (P := fun built => ∃ name inverted, z.operation = .composite name built inverted) ?_ hu
        fun built hbuilt => ?_
      · refine reads_instruction.bind fun w hw => ?_
        cases hz.symm.trans hw
        split
        · next name' built inverted' hop' => exact reads_pure ⟨name', inverted', hop'⟩
        · exact reads_throw
      · obtain ⟨name', inverted', hop'⟩ := hbuilt
        obtain ⟨hzargs, -⟩ := (hu.formed _ z hs.size_not_mem.1 hz).composite hop'
        obtain ⟨z', hz', hyz, -⟩ := hgrows.instructions _ y (s.instruction?_push_self y)
        cases hz.symm.trans hz'
        obtain ⟨e, he, -, hlibrary⟩ := hgrows.circuits _ d hd
        have hzbody := hu.part hs.size_not_mem.1 hz hop'
        have halike : z.Alike { z with
            operation := .composite name built inverted, condition := x.condition, controls := x.controls } :=
          (Instruction.alike_composite hop' name built inverted).trans ⟨rfl, rfl, rfl, rfl⟩
        exact (safe_put hu hz halike (fun hready => absurd (Set.mem_insert _ _) hready)
          (Store.formed_of_composite rfl hzargs (hyz.circuit.symm ▸ he) hname (hlibrary.symm ▸ hfree))
          fun k hk => (hzbody k hk).congr rfl rfl).bind fun _ v hv huv _ =>
            safe_pure hv ⟨Store.Known.mono ⟨hs.size_not_mem.1, Store.instruction?_lt hz⟩ huv, hs.size_not_mem.2⟩
    · rintro e t rfl
      exact ⟨hs, .refl t⟩

theorem safe_reapply (depth : Nat) (hs : s.Orderly libs lost loose) (hi : i ∉ lost) (hk : k.IsKept lost) :
    (reapply depth i k).Safe libs lost loose s fun j t => t.Known lost j := by
  induction depth generalizing i k s loose with
  | zero => exact safe_throw hs
  | succ depth ih =>
    refine (reads_circuitOf k).safe_bind hs fun home _ => ?_
    refine (safe_renew (fun ht hm hg => (ih (k := .gate _) ht hm hg).imp fun _ _ _ => trivial) hs hi).bind
      fun j t ht _ hj => ?_
    exact (safe_attach ht hk hj.1.1 hj.2).bind fun _ u hu htu _ => safe_pure hu (hj.1.mono htu)

/-! ## Extension -/

/-- A store that is sound but for instructions that a failed step has left behind. All that could be got at
before still can. -/
def Recovers (libs : Set Library) (lost : Set InstructionId) (s t : Store) : Prop :=
  ∃ lost', t.Orderly libs lost' ∅ ∧ ∀ i, s.Known lost i → t.Known lost' i

theorem Recovers.of_sound (ht : t.Orderly libs lost ∅) (hst : s.Grows ∅ t) : Recovers libs lost s t :=
  ⟨lost, ht, fun _ hi => hi.mono hst⟩

/-- A step that may leave instructions behind when it fails. All others are sound in any case. -/
def Lawful (libs : Set Library) (lost : Set InstructionId) (a : Action α) (s : Store) (Q : α → Store → Prop) : Prop :=
  a.Ends s (fun v t => t.Orderly libs lost ∅ ∧ s.Grows ∅ t ∧ Q v t) fun _ t => Recovers libs lost s t

theorem Safe.lawful (h : a.Safe libs lost ∅ s Q) : a.Lawful libs lost s Q :=
  Ends.imp h (fun _ _ ht => ht) fun _ _ ht => .of_sound ht.1 ht.2

theorem Lawful.imp (h : a.Lawful libs lost s Q) (hQ : ∀ v t, Q v t → Q' v t) : a.Lawful libs lost s Q' :=
  Ends.map h fun v t ht => ⟨ht.1, ht.2.1, hQ v t ht.2.2⟩

theorem Lawful.bind (ha : a.Lawful libs lost s Q)
    (hf : ∀ v t, t.Orderly libs lost ∅ → s.Grows ∅ t → Q v t → (f v).Lawful libs lost t R) :
    (a >>= f).Lawful libs lost s R := by
  refine ends_bind.mpr (Ends.map ha ?_)
  rintro v t ⟨ht, hst, hv⟩
  refine Ends.imp (hf v t ht hst hv) ?_ ?_
  · rintro w u ⟨hu, htu, hw⟩
    exact ⟨hu, hst.trans htu, hw⟩
  · rintro e u ⟨lost', hu, hknown⟩
    exact ⟨lost', hu, fun i hi => hknown i (hi.mono hst)⟩

theorem beyond_of_declared {x : Circuit} {rs : List Register} (hx : s.circuit? c = some x) (h : Declared s c x rs t) :
    s.Beyond n c t :=
  (Store.Beyond.putCircuit (y := { x with registers := x.registers ++ rs }) hx rfl rfl).trans
    (.of_circuits (fun i _ => by rw [Store.instruction?, h.1]; rfl) h.2)

theorem spares_addRegisters : (addRegisters c regs).Spares n c s fun _ _ => True := by
  refine ends_addRegisters_any.imp ?_ ?_
  · rintro _ t ⟨x, rs, hx, -, -, ht⟩
    exact ⟨beyond_of_declared hx ht, trivial⟩
  · rintro e t (rfl | ⟨-, x, before, _, _, hx, -, -, -, ht⟩)
    · exact .refl n c t
    · exact beyond_of_declared hx ht

section

variable (hs : s.Orderly libs lost ∅)

include hs

/-- An extension that fails takes back what it did to the circuit. -/
theorem lawful_extend {other : CircuitId} : (extend c other).Lawful libs lost s fun _ _ => True := by
  have hfail : Recovers libs lost s s := .of_sound hs (.refl s)
  refine reads_circuit.ends_bind (fun _ => hfail) fun x hx => reads_circuit.ends_bind (fun _ => hfail) fun y hy => ?_
  refine (Reads.forM (P := fun _ => True) fun r _ => ?_).ends_bind (fun _ => hfail) fun _ _ => ?_
  · split
    · exact reads_ite (fun _ => reads_fail) fun _ => reads_pure trivial
    · exact reads_pure trivial
  have hadd : (addRegisters c ((y.registers.filter fun r => (x.register? r.name).isNone).map .register)).Ends s
      _ _ := Ends.and (safe_addRegisters hs) (spares_addRegisters (n := s.instructions.size))
  refine ends_bind.mpr (hadd.imp ?_ fun _ _ h => .of_sound h.1.1 h.1.2)
  rintro _ t ⟨⟨ht, hst, -⟩, hbeyond, -⟩
  refine reads_depth.ends_bind (fun _ => .of_sound ht hst) fun m _ => ?_
  have hmember : ∀ i ∈ y.data, i ∉ lost := fun i hi => (hs.data other y hy i hi).kept
  have hloop : (y.data.forM fun i => do
      let _ ← reapply m i (.circuit c)).Ends t _ _ :=
    Ends.and (safe_forM ht fun i hi u hu _ => (safe_reapply m hu (hmember i hi) (k := .circuit c) trivial).bind
        fun _ v hv _ _ => safe_pure hv trivial)
      (spares_forM (n := s.instructions.size) (c := c) fun i _ u htu =>
        (spares_reapply m i (k := .circuit c) rfl (htu.le_size (hbeyond.le_size (Nat.le_refl _)))).bind
          fun _ _ _ _ => spares_pure trivial)
  refine ends_tryCatch.mpr (hloop.imp ?_ ?_)
  · rintro _ u ⟨⟨hu, htu, -⟩, -⟩
    exact ⟨hu, hst.trans htu, trivial⟩
  · rintro e u ⟨⟨hu, htu⟩, hbeyond'⟩
    refine reads_circuit.ends_bind (fun _ => .of_sound hu (hst.trans htu)) fun now hnow => ?_
    have hall := hbeyond.trans hbeyond'
    refine ends_bind.mpr (ends_modify.mpr (ends_throw.mpr ⟨_, Store.Beyond.orderly_revert hs hu hall hx hnow, ?_⟩))
    rintro i ⟨hkept, hi⟩
    refine ⟨?_, Nat.lt_of_lt_of_le hi (hall.le_size (Nat.le_refl _))⟩
    rintro (hmem | hmem)
    · exact hkept hmem
    · exact Nat.lt_irrefl _ (Nat.lt_of_lt_of_le hi hmem.1)

theorem lawful_duplicate {a : CircuitId} : (duplicate a).Lawful libs lost s fun _ _ => True := by
  refine reads_circuit.ends_bind (fun _ => .of_sound hs (.refl s)) fun x hx => ?_
  exact (safe_newCircuit hs (hs.libraries a x hx)).lawful.bind fun d t ht _ _ =>
    (lawful_extend ht).bind fun _ u hu _ _ =>
    (safe_pure hu trivial).lawful

theorem lawful_concat {a b : CircuitId} : (concat a b).Lawful libs lost s fun _ _ => True :=
  (lawful_duplicate hs).bind fun _ _ ht _ _ => (lawful_extend ht).bind fun _ _ hu _ _ =>
    (safe_pure hu trivial).lawful

end

end Action

end QasmCircuit
