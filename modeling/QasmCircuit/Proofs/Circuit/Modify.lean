import Mathlib.Logic.Relation
import QasmCircuit.Proofs.Circuit.Build

/-!
# Modifying keeps stores sound

Modifiers change gates with a body in place, and go on inside them. Inverting keeps the operands and the
modifiers of every instruction (`Store.Keeps`). Controlling keeps all bodies, and it changes nothing but the
gate and what is inside it (`frame_control`); since the controls are checked down to the last level before
anything is changed, no gate that contains itself gets through (`Store.Bounded.not_transGen`).
-/

namespace QasmCircuit

open Outcome Relation List Instruction

variable {s t u : Store} {libs : Set Library} {lost loose : Set InstructionId} {i j : InstructionId}
  {bits used : List Bit} {gates is : List InstructionId} {regs : List Argument} {y : Instruction}
  {lib : Library} {g : Family} {b : Bit} {name : String} {n : Nat}

/-! ## Inversion -/

/-- Instructions are still there, what they were and with their modifiers. -/
def Store.Keeps (s t : Store) : Prop :=
  ∀ i x, s.instruction? i = some x → ∃ y, t.instruction? i = some y ∧ x.Alike y ∧ y.controls = x.controls ∧
    y.condition = x.condition

namespace Store.Keeps

theorem refl (s : Store) : s.Keeps s := fun _ x hx => ⟨x, hx, .refl x, rfl, rfl⟩

theorem trans (hst : s.Keeps t) (htu : t.Keeps u) : s.Keeps u := by
  intro i x hx
  obtain ⟨y, hy, hxy, hcontrols, hcondition⟩ := hst i x hx
  obtain ⟨z, hz, hyz, hcontrols', hcondition'⟩ := htu i y hy
  exact ⟨z, hz, hxy.trans hyz, hcontrols'.trans hcontrols, hcondition'.trans hcondition⟩

theorem push (s : Store) (x : Instruction) : s.Keeps (s.push x) := fun _ y hy =>
  ⟨y, instruction?_push_of_some hy, .refl y, rfl, rfl⟩

theorem put {x : Instruction} (hx : s.instruction? i = some x)
    (hxy : x.Alike y) (hcontrols : y.controls = x.controls) (hcondition : y.condition = x.condition) :
    s.Keeps (s.put i y) := by
  intro j z hz
  rw [instruction?_put_of_some hx]
  split
  · next hji =>
    subst hji
    cases hx.symm.trans hz
    exact ⟨y, rfl, hxy, hcontrols, hcondition⟩
  · exact ⟨z, hz, .refl z, rfl, rfl⟩

end Store.Keeps

theorem Sequence.mem_of_pick? {α : Type} {values : List α} {index : Int} {x : α}
    (h : Sequence.pick? values index = some x) : x ∈ values := by
  unfold Sequence.pick? at h
  dsimp only at h
  by_cases hfront : (if index < 0 then index + values.length else index) < 0
  · rw [if_pos hfront] at h
    cases h
  · rw [if_neg hfront] at h
    exact mem_of_getElem? h

namespace Store

/-- An instruction of a later store may stand wherever another one stood. -/
structure StandsFor (lost loose : Set InstructionId) (s : Store) (i : InstructionId) (t : Store) (j : InstructionId) :
    Prop where
  known : t.Known lost j
  member : ∀ c, s.Member lost loose c i → t.Member lost loose c j
  scope : ∀ args, s.InScope args i → t.InScope args j

namespace StandsFor

theorem refl (h : s.Known lost i) : s.StandsFor lost loose i s i := ⟨h, fun _ h => h, fun _ h => h⟩

theorem mono (h : s.StandsFor lost loose i t j) (htu : t.Grows loose u) : s.StandsFor lost loose i u j :=
  ⟨h.known.mono htu, fun c hc => (h.member c hc).mono htu, fun args hargs => (h.scope args hargs).mono htu⟩

theorem of_grows (h : t.StandsFor lost loose i u j) (hst : s.Grows loose t) : s.StandsFor lost loose i u j :=
  ⟨h.known, fun c hc => h.member c (hc.mono hst), fun args hargs => h.scope args (hargs.mono hst)⟩

theorem part {x : Instruction} (h : s.StandsFor lost loose i t j) (hi : s.Part lost loose x i) :
    t.Part lost loose x j :=
  ⟨h.member _ hi.toMember, h.scope _ hi.scope⟩

/-- A new instruction may stand for one that it is like. -/
theorem push (ht : t.Orderly libs lost loose) (hst : s.Grows loose t) {x : Instruction} (hx : s.instruction? i = some x)
    (hxy : x.Alike y) (hcontrols : y.controls = x.controls) (hcondition : y.condition = x.condition) :
    s.StandsFor lost loose i (t.push y) t.instructions.size := by
  have hgrows : s.Grows loose (t.push y) := hst.trans (.push t y)
  refine ⟨ht.known_push y, fun c hmember => ?_, fun args hscope => ?_⟩
  · obtain ⟨z, hz, hc, hfits⟩ := hmember.fits
    cases hx.symm.trans hz
    refine ⟨ht.size_not_mem.1, ht.size_not_mem.2, y, t.instruction?_push_self y, hxy.circuit.trans hc, ?_⟩
    exact (hfits.mono hgrows).congr hxy.circuit hxy.splitArgs hcontrols hcondition
  · obtain ⟨z, hz, hmeasure, hargs⟩ := hscope
    cases hx.symm.trans hz
    refine ⟨y, t.instruction?_push_self y, hxy.isMeasure.trans hmeasure, ?_⟩
    rw [hxy.args]
    exact hargs

end StandsFor

end Store

namespace Action

/-- Inverting keeps the operands and the modifiers of everything that was there. -/
theorem keeps_inverse (depth : Nat) (i : InstructionId) (s : Store) : (inverse depth i).Leaves s s.Keeps := by
  induction depth generalizing i s with
  | zero => exact ends_throw.mpr (.refl s)
  | succ depth ih =>
    refine ends_bind.mpr (ends_instruction (fun x hx => ?_) fun _ => .refl s)
    split
    · next f hop =>
      split
      · exact ends_pure.mpr (.refl s)
      · refine ends_bind.mpr (ends_lift (fun params _ => ?_) fun _ _ => .refl s)
        refine ends_bind.mpr (ends_circuit (fun c _ => ?_) fun _ => .refl s)
        refine ends_bind.mpr (ends_lift (fun g _ => ?_) fun _ _ => .refl s)
        exact ends_modifyGet.mpr (.push s _)
    · exact ends_pure.mpr (.refl s)
    · exact ends_fail.mpr (.refl s)
    · next name body inverted hop =>
      have hbody : (body.reverse.mapM (inverse depth)).Leaves s s.Keeps :=
        ends_mapM (I := fun _ _ => s.Keeps) (fun _ j _ _ t _ hst => (ih j t).mono fun _ => hst.trans) (.refl s)
      refine hbody.bind fun body' t hst => ends_bind.mpr (ends_modify.mpr (ends_pure.mpr ?_))
      obtain ⟨y, hy, hxy, hcontrols, hcondition⟩ := hst i x hx
      exact hst.trans (.put hy (hxy.symm.trans (alike_composite hop _ _ _)) hcontrols.symm hcondition.symm)

/-- A parameter of an inverse is one of the gate, up to its sign. -/
theorem invertParams_ok (hlib : lib.IsRegular) {f : Family} (hf : lib.find? f.name = some f)
    {values new : List Float} (hvalues : ∀ x ∈ values, x.isFinite) (h : f.invertParams values = .ok new) :
    new.length = f.inverseParams.length ∧ ∀ x ∈ new, x.isFinite := by
  have hall := mapM_eq_ok.mp h
  refine ⟨hall.length_eq.symm, fun x hx => ?_⟩
  obtain ⟨⟨index, factor⟩, hp, hx'⟩ := exists_of_forall₂ hall x hx
  dsimp only at hx'
  split at hx'
  · next y hy =>
    rw [Family.scale, Decimal.ofInt?_unit (hlib.factor f hf _ hp)] at hx'
    cases hx'
    exact Decimal.isFinite_unit_mul (hvalues y (Sequence.mem_of_pick? hy))
  · exact nomatch hx'

variable {x : Instruction} {register value : Argument}

theorem isProper_inverse (hlib : lib.IsRegular) {f : Family} (hop : x.operation = .atomic f)
    (hx : x.IsProper lib) {params : List Float} (hparams : f.invertParams x.params = .ok params)
    (hg : lib.find? f.inverseName = some g) : { x with operation := .atomic g, params }.IsProper lib := by
  rw [IsProper, hop] at hx
  obtain ⟨hf, -, hfinite, harity, hcontrolled⟩ := hx
  obtain ⟨hlength, hfinite'⟩ := invertParams_ok hlib hf hfinite hparams
  obtain ⟨hcount, harity'⟩ := hlib.inverse f g hf hg
  refine ⟨Library.find?_name hg, hlength.trans hcount, hfinite', harity.trans harity'.symm, fun haligned => ?_⟩
  exact haligned f g _ hf hg (hcontrolled haligned)

/-- The inverse of a member may stand in its place. -/
theorem safe_inverse (depth : Nat) (hs : s.Orderly libs lost loose) (hi : i ∉ lost) :
    (inverse depth i).Safe libs lost loose s fun j t => s.StandsFor lost loose i t j := by
  induction depth generalizing i s with
  | zero => exact safe_throw hs
  | succ depth ih =>
    refine reads_instruction.safe_bind hs fun x hx => ?_
    have hformed := hs.formed i x hi hx
    have hsame : s.StandsFor lost loose i s i := .refl ⟨hi, Store.instruction?_lt hx⟩
    split
    · next f hop =>
      refine safe_ite (fun _ => safe_pure hs hsame) fun _ => ?_
      refine reads_lift.safe_bind hs fun params hparams => reads_circuit.safe_bind hs fun c hc => ?_
      refine reads_lift.safe_bind hs fun g hg => ?_
      rw [Library.lookup_eq_ok] at hg
      have hnew : s.Formed libs { x with operation := .atomic g, params } := by
        obtain ⟨hfound, hcontrolled⟩ := hformed.isNative hop hc
        refine ⟨fun lib hlib => ?_, fun _ _ => ⟨c, hc, Library.find?_name hg, fun haligned =>
          haligned f g _ hfound hg (hcontrolled haligned)⟩, fun _ hlibs => ?_⟩
        · obtain ⟨hlibs, hregular⟩ := hlib rfl
          have hlibrary : c.library = lib := Set.mem_singleton_iff.mp (hlibs ▸ hs.libraries _ c hc)
          exact isProper_inverse hregular hop (hformed.proper lib fun _ => ⟨hlibs, hregular⟩) hparams (hlibrary ▸ hg)
        · have hfinite := hformed.finite (by rw [Instruction.isAtomic, hop]) hlibs
          exact (invertParams_ok (hlibs c.library (hs.libraries _ c hc)) hfound hfinite hparams).2
      refine (safe_create hs hnew (forall_mem_nil _)).imp ?_
      rintro j t ⟨rfl, rfl⟩
      refine .push hs (.refl s) hx ⟨rfl, rfl, ?_, ?_⟩ rfl rfl
      · rw [Instruction.isBarrier, Instruction.isBarrier, hop]
      · rw [Instruction.isMeasure, Instruction.isMeasure, hop]
    · exact safe_pure hs hsame
    · exact safe_fail hs
    · next name body inverted hop =>
      have hinside := hs.part hi hx hop
      have hloop : (body.reverse.mapM (inverse depth)).Safe libs lost loose s fun body' t =>
          Forall₂ (fun j j' => s.StandsFor lost loose j t j') body.reverse body' := by
        refine safe_mapM hs (fun j j' t u h htu => h.mono htu) fun j hj t ht hst => ?_
        exact (ih ht (hinside j (mem_reverse.mp hj)).kept).imp fun j' u hj' => hj'.of_grows hst
      have hkeeps : (body.reverse.mapM (inverse depth)).Leaves s s.Keeps :=
        ends_mapM (I := fun _ _ => s.Keeps) (fun _ j _ _ t _ hst =>
          (keeps_inverse depth j t).mono fun _ => hst.trans) (.refl s)
      have hboth : (body.reverse.mapM (inverse depth)).Safe libs lost loose s fun body' t =>
          (∀ j ∈ body', t.Part lost loose x j) ∧ s.Keeps t := by
        refine (Ends.and hloop hkeeps).imp ?_ fun _ _ h => h.1
        rintro body' t ⟨⟨ht, hst, hall⟩, hkept⟩
        refine ⟨ht, hst, fun j' hj' => ?_, hkept⟩
        obtain ⟨j, hj, hstands⟩ := exists_of_forall₂ hall j' hj'
        exact hstands.part (hinside j (mem_reverse.mp hj))
      refine hboth.bind fun body' t ht hst hbody' => ?_
      obtain ⟨y, hy, hxy, hcontrols, hcondition⟩ := hbody'.2 i x hx
      have halike := hxy.symm.trans (alike_composite hop name body' (!inverted))
      have hput := safe_put (y := { x with operation := .composite name body' (!inverted) }) ht hy halike
        (fun _ hfits => hfits.congr hxy.circuit.symm halike.splitArgs hcontrols.symm hcondition.symm)
        ((hformed.putBody hop body' (!inverted)).mono hst)
        fun j hj => (hbody'.1 j hj).congr rfl rfl
      exact hput.bind fun _ u hu htu _ => safe_pure hu ((hsame.mono hst).mono htu)

theorem safe_inverseCircuit {c : CircuitId} (hs : s.Orderly libs lost loose) :
    (inverseCircuit c).Safe libs lost loose s fun _ _ => True := by
  refine reads_circuit.safe_bind hs fun x hx => ?_
  refine (Reads.forM (P := fun _ => True) fun i _ => reads_instruction.bind fun y _ => ?_).safe_bind hs
    fun _ _ => reads_depth.safe_bind hs fun n _ => ?_
  · split
    · exact reads_fail
    · exact reads_pure trivial
  have hloop : (x.data.reverse.mapM (inverse n)).Safe libs lost loose s fun data t =>
      Forall₂ (fun _ j' => t.Member lost loose c j') x.data.reverse data := by
    refine safe_mapM hs (fun _ j' t u h htu => h.mono htu) fun j hj t ht hst => ?_
    have hmember := hs.data c x hx j (mem_reverse.mp hj)
    exact (safe_inverse n ht hmember.kept).imp fun j' u hj' => hj'.member c (hmember.mono hst)
  refine hloop.bind fun data t ht hst hdata => reads_circuit.safe_bind ht fun y hy => ?_
  refine (safe_putCircuit (y := { y with data }) ht hy (List.Subset.refl _) rfl (ht.names c y hy)
    (ht.short c y hy) ?_).imp
    fun _ _ _ => trivial
  intro i hi
  obtain ⟨_, -, hmember⟩ := exists_of_forall₂ hdata i hi
  exact hmember

/-! ## Conditions -/

/-- Whether there is an instruction under a number, and it is no barrier. -/
def isGate (s : Store) (i : InstructionId) : Bool := (s.instruction? i).any fun x => !x.isBarrier

theorem reads_gatesOf (body : List InstructionId) :
    (gatesOf body).Reads s fun gates => gates = body.filter (isGate s) := by
  refine Reads.filterM fun i _ => reads_instruction.bind fun x hx => reads_pure ?_
  rw [isGate, hx, Option.any_some]

theorem mem_of_gates {body : List InstructionId} (h : gates = body.filter (isGate s)) :
    ∀ j ∈ gates, j ∈ body := by
  rw [h]
  exact fun j hj => mem_of_mem_filter hj

/-- A condition that was checked may be put on an instruction. -/
theorem safe_putCondition {new : Condition} {c : Circuit} (hs : s.Orderly libs lost loose)
    (hi : i ∉ lost) (hx : s.instruction? i = some x) (hop : x.isBarrier = false) (hc : s.circuit? x.circuit = some c)
    (hnew : new.1 ∈ c.registers ∧ new.1.kind = .classical ∧ new.1.fits new.2) :
    (put i { x with condition := some new }).Safe libs lost loose s fun _ _ => True := by
  have hformed : s.Formed libs { x with condition := some new } := by
    have hold := hs.formed i x hi hx
    refine ⟨fun lib hlib => ?_, hold.home, hold.finite⟩
    have hproper := hold.proper lib hlib
    unfold IsProper at hproper ⊢
    dsimp only
    cases hx' : x.operation with
    | barrier =>
      rw [Instruction.isBarrier, hx'] at hop
      cases hop
    | _ =>
      rw [hx'] at hproper
      exact hproper
  refine (safe_put (y := { x with condition := some new }) hs hx ⟨rfl, rfl, rfl, rfl⟩ ?_ hformed
    fun j hj => (hs.body i x hi hx j hj).congr rfl rfl).imp fun _ _ _ => trivial
  rintro - ⟨d, hd, hfits⟩
  cases hc.symm.trans hd
  refine ⟨c, hc, hfits.qubits, hfits.clbits, hfits.distinct, hfits.controls, ?_⟩
  intro r v hrv
  cases hrv
  exact hnew

theorem reads_checkConditionOnAll (is : List InstructionId) (register value : Argument) :
    (checkConditionOnAll is register value).Reads s fun _ => ∀ j ∈ is, True :=
  Reads.forM fun _ _ => reads_instruction.bind fun y _ =>
    (reads_checkCondition y register value).bind fun _ _ => reads_pure trivial

theorem safe_condition (depth : Nat) (hs : s.Orderly libs lost loose) (hi : i ∉ lost) :
    (condition depth i register value).Safe libs lost loose s fun _ _ => True := by
  induction depth generalizing i s with
  | zero => exact safe_throw hs
  | succ depth ih =>
    refine reads_instruction.safe_bind hs fun x hx => ?_
    have hleaf : x.isBarrier = false → Safe libs lost loose (do
        let new ← checkCondition x register value
        put i { x with condition := some new }) s fun _ _ => True := by
      intro hop
      refine (reads_checkCondition x register value).safe_bind hs fun new hnew => ?_
      obtain ⟨-, -, c, hc, hfacts⟩ := hnew
      exact safe_putCondition hs hi hx hop hc hfacts
    split
    · exact safe_fail hs
    · next f hop => exact hleaf (by rw [Instruction.isBarrier, hop])
    · next hop => exact hleaf (by rw [Instruction.isBarrier, hop])
    · next name body inverted hop =>
      have hinside := hs.part hi hx hop
      refine (reads_checkCondition x register value).safe_bind hs fun new hnew => ?_
      obtain ⟨-, -, c, hc, hfacts⟩ := hnew
      refine (reads_gatesOf body).safe_bind hs fun gates hgates => ?_
      refine (reads_checkConditionOnAll gates register value).safe_bind hs fun _ _ => ?_
      refine (safe_forM hs fun j hj t ht _ => ih ht (hinside j (mem_of_gates hgates j hj)).kept).bind ?_
      intro _ t ht hst _
      refine reads_instruction.safe_bind ht fun y hy => ?_
      obtain ⟨z, hz, hxz, -⟩ := hst.instructions i x hx
      cases hy.symm.trans hz
      obtain ⟨d, hd, hregisters, -⟩ := hst.circuits _ c hc
      refine safe_putCondition ht hi hy ?_ (hxz.circuit ▸ hd) ⟨hregisters hfacts.1, hfacts.2⟩
      rw [hxz.isBarrier, Instruction.isBarrier, hop]

theorem safe_conditionAll (hs : s.Orderly libs lost loose)
    (his : ∀ i ∈ is, i ∉ lost) : (conditionAll is register value).Safe libs lost loose s fun _ _ => True := by
  refine (reads_checkConditionOnAll is register value).safe_bind hs fun _ _ => reads_depth.safe_bind hs fun n _ => ?_
  exact safe_forM hs fun i hi t ht _ => safe_condition n ht (his i hi)

end Action

/-! ## Checks of controls -/

namespace Bit

theorem among_iff : b.among bits ↔ b.key ∈ bits.map key := by
  rw [among, any_eq_true, mem_map]
  exact exists_congr fun c => and_congr_right fun _ => beq_iff_eq.trans eq_comm

theorem distinct_iff : distinct bits ↔ (bits.map key).Nodup := by
  induction bits with
  | nil => exact ⟨fun _ => nodup_nil, fun _ => rfl⟩
  | cons b rest ih =>
    rw [distinct, Bool.and_eq_true, Bool.not_eq_true', ih, map_cons, nodup_cons, ← among_iff, Bool.not_eq_true]

/-- Some bits differ from each other and from those in use. -/
def Fresh (used bits : List Bit) : Prop := (bits.map key).Nodup ∧ ∀ b ∈ bits, b.key ∉ used.map key

theorem fresh_cons : Fresh used (b :: bits) ↔ b.key ∉ used.map key ∧ Fresh (b :: used) bits := by
  simp only [Fresh, map_cons, nodup_cons, mem_cons, not_or, mem_map]
  grind

theorem fresh_append {more : List Bit} :
    Fresh used (bits ++ more) ↔ Fresh used bits ∧ Fresh (bits.reverse ++ used) more := by
  induction bits generalizing used with
  | nil => simp [Fresh]
  | cons b rest ih => rw [cons_append, fresh_cons, ih, fresh_cons, reverse_cons, append_assoc, and_assoc]; rfl

theorem nodup_append_iff : ((bits ++ used).map key).Nodup ↔ Fresh used bits ∧ (used.map key).Nodup := by
  simp only [Fresh, map_append, nodup_append, forall_mem_map]
  grind

end Bit

namespace Action

theorem checkFresh_eq_ok {used' : List Bit} :
    checkFresh name used bits = .ok used' ↔ Bit.Fresh used bits ∧ used' = bits.reverse ++ used := by
  induction bits generalizing used with
  | nil => simp [checkFresh, Bit.Fresh, eq_comm]
  | cons b rest ih =>
    rw [checkFresh, Bit.fresh_cons, ← Bit.among_iff]
    split
    · next hused =>
      constructor
      · exact fun h => nomatch h
      · exact fun h => absurd hused h.1.1
    · next hfresh =>
      rw [ih, reverse_cons, append_assoc, and_iff_right hfresh]
      rfl

/-- New controls are quantum registers of the circuit, and their bits are not in use. -/
theorem checkControlRegisters_ok {c : Circuit}
    {new : List Register} (h : checkControlRegisters c name used regs = .ok new) :
    regs = new.map .register ∧ (∀ r ∈ new, r ∈ c.registers ∧ r.kind = .quantum) ∧
      Bit.Fresh used (new.flatMap Register.bits) := by
  induction regs generalizing used new with
  | nil =>
    cases h
    exact ⟨rfl, forall_mem_nil _, nodup_nil, forall_mem_nil _⟩
  | cons a rest ih =>
    cases a with
    | register r =>
      rw [checkControlRegisters] at h
      split at h
      · obtain ⟨_, hr, hfresh⟩ := bind_eq_ok.mp h
        obtain ⟨used', hused', hrest⟩ := bind_eq_ok.mp hfresh
        obtain ⟨more, hmore, hpure⟩ := bind_eq_ok.mp hrest
        obtain ⟨hbits, rfl⟩ := checkFresh_eq_ok.mp hused'
        obtain ⟨rfl, hdeclared, hfresh'⟩ := ih hmore
        rw [← pure_eq_ok.mp hpure, forall_mem_cons, flatMap_cons, Bit.fresh_append]
        exact ⟨rfl, ⟨Circuit.checkQuantum_ok (asModifier_eq_ok.mp hr), hdeclared⟩, hbits, hfresh'⟩
      · exact nomatch h
    | _ => exact nomatch h

theorem controlledFamily_eq_ok {c : Circuit} {gate : String} {total : Nat} {f : Family} :
    controlledFamily c gate total n f = .ok g ↔ c.library.controlledBy n f = some g := by
  induction n generalizing f with
  | zero => rw [controlledFamily, Library.controlledBy, Except.ok.injEq, Option.some.injEq]
  | succ n ih =>
    rw [controlledFamily, Library.controlledBy]
    cases f.controlled with
    | none => exact iff_of_false (fun h => by cases h) fun h => by cases h
    | some name =>
      rw [Option.bind_some, bind_eq_ok, Option.bind_eq_some_iff]
      simp only [asModifier_eq_ok, Library.lookup_eq_ok, ih]

end Action

/-! ## Controls -/

namespace Store

/-- The members of an instruction, and whether it is a barrier. -/
def shape (s : Store) (i : InstructionId) : Option (List InstructionId × Bool) :=
  (s.instruction? i).map fun x => (x.inside, x.isBarrier)

/-- A gate is inside the body of another one. -/
def Holds (s : Store) (i j : InstructionId) : Prop :=
  ∃ p, s.shape i = some p ∧ j ∈ p.1 ∧ ∃ body, s.shape j = some (body, false)

/-- An instruction and all gates inside it satisfy `P`, and they are nested to less than a number of levels. -/
def Bounded (s : Store) (P : Instruction → Prop) : Nat → InstructionId → Prop
  | 0, _ => False
  | n + 1, i => (∃ x, s.instruction? i = some x ∧ P x) ∧ ∀ j, s.Holds i j → s.Bounded P n j

variable {P : Instruction → Prop} {x : Instruction}

theorem Bounded.not_transGen (h : s.Bounded P n i) : ¬ TransGen s.Holds i i := by
  induction n generalizing i with
  | zero => exact h.elim
  | succ n ih =>
    intro hcycle
    obtain ⟨j, hij, hji⟩ := TransGen.head'_iff.mp hcycle
    exact ih (h.2 j hij) (TransGen.tail' hji hij)

theorem holds_iff (hx : s.instruction? i = some x) :
    s.Holds i j ↔ j ∈ x.inside ∧ ∃ y, s.instruction? j = some y ∧ y.isBarrier = false := by
  constructor
  · rintro ⟨p, hp, hmem, body, hj⟩
    rw [shape, hx] at hp
    cases hp
    obtain ⟨y, hy, hshape⟩ := Option.map_eq_some_iff.mp hj
    exact ⟨hmem, y, hy, congrArg Prod.snd hshape⟩
  · rintro ⟨hmem, y, hy, hbarrier⟩
    refine ⟨_, by rw [shape, hx]; rfl, hmem, y.inside, ?_⟩
    rw [shape, hy, Option.map_some, hbarrier]

theorem bounded_of_inside (hx : s.instruction? i = some x) (h : x.inside = []) (hP : P x) :
    s.Bounded P (n + 1) i := by
  refine ⟨⟨x, hx, hP⟩, fun j hj => ?_⟩
  rw [holds_iff hx, h] at hj
  exact absurd hj.1 not_mem_nil

theorem holds_eq (h : t.shape = s.shape) : t.Holds = s.Holds := by
  unfold Holds
  rw [h]

/-- No body was changed, and nothing else but some instructions. -/
structure Frame (P : InstructionId → Prop) (s t : Store) : Prop where
  shape : t.shape = s.shape
  circuits : t.circuits = s.circuits
  others : ∀ k, ¬ P k → t.instruction? k = s.instruction? k

theorem Frame.refl (P : InstructionId → Prop) (s : Store) : Frame P s s := ⟨rfl, rfl, fun _ _ => rfl⟩

variable {P R : InstructionId → Prop}

theorem Frame.trans (hst : Frame P s t) (htu : Frame R t u) (h : ∀ k, R k → P k) : Frame P s u :=
  ⟨htu.shape.trans hst.shape, htu.circuits.trans hst.circuits,
    fun k hk => (htu.others k fun hr => hk (h k hr)).trans (hst.others k hk)⟩

theorem Frame.weaken (hst : Frame P s t) (h : ∀ k, P k → R k) : Frame R s t :=
  ⟨hst.shape, hst.circuits, fun k hk => hst.others k fun hp => hk (h k hp)⟩

theorem Frame.put (hx : s.instruction? i = some x)
    (hinside : y.inside = x.inside) (hb : y.isBarrier = x.isBarrier) (hi : P i) : Frame P s (s.put i y) := by
  refine ⟨?_, rfl, ?_⟩
  · funext k
    rw [Store.shape, Store.shape, instruction?_put_of_some hx]
    split
    · next hki => rw [hki, hx, Option.map_some, Option.map_some, hinside, hb]
    · rfl
  · intro k hk
    rw [instruction?_put_of_some hx, if_neg]
    rintro rfl
    exact hk hi

end Store

namespace Action

variable {x : Instruction}

theorem holds_of_gates (hx : s.instruction? i = some x) (h : gates = x.inside.filter (isGate s)) :
    ∀ j, j ∈ gates ↔ s.Holds i j := by
  intro j
  rw [h, mem_filter, Store.holds_iff hx, isGate, Option.any_eq_true]
  simp only [Bool.not_eq_true']

/-- New controls of an instruction pass the checks of a circuit: their bits are not in use, and a gate of the library
has a form with all controls. -/
def TakesControls (c : Circuit) (regs : List Argument) (x : Instruction) (new : List Register) : Prop :=
  checkControlRegisters c x.name (x.args ++ x.controlBits) regs = .ok new ∧ ∀ f, x.operation = .atomic f →
      (c.library.controlledBy (x.controlBits.length + (new.map (·.size)).sum) f).isSome

/-- New controls of an instruction pass the checks of its circuit. -/
def MayControl (s : Store) (regs : List Argument) (x : Instruction) : Prop :=
  ∃ c new, s.circuit? x.circuit = some c ∧ TakesControls c regs x new

theorem inside_eq_nil (h : ∀ name body inverted, x.operation ≠ .composite name body inverted) : x.inside = [] := by
  unfold Instruction.inside
  split
  · next name body inverted hop => exact absurd hop (h name body inverted)
  · rfl

/-- Controls are checked down to the last level. -/
theorem reads_checkControls (depth : Nat) (i : InstructionId) (regs : List Argument) :
    (checkControls depth i regs).Reads s fun new => s.Bounded (MayControl s regs) depth i ∧
      ∃ x c, s.instruction? i = some x ∧ s.circuit? x.circuit = some c ∧ TakesControls c regs x new := by
  induction depth generalizing i with
  | zero => exact reads_throw
  | succ depth ih =>
    refine reads_instruction.bind fun x hx => reads_circuit.bind fun c hc => ?_
    refine reads_lift.bind fun new hnew => ?_
    split
    · next f hop =>
      refine reads_lift.bind fun g hg => reads_pure ?_
      have htakes : TakesControls c regs x new := by
        refine ⟨hnew, fun f' hop' => ?_⟩
        cases hop.symm.trans hop'
        rw [controlledFamily_eq_ok.mp hg]
        rfl
      exact ⟨Store.bounded_of_inside hx (by rw [Instruction.inside, hop]) ⟨c, new, hc, htakes⟩, x, c, hx, hc, htakes⟩
    · next name body inverted hop =>
      have hinside : x.inside = body := by rw [Instruction.inside, hop]
      have htakes : TakesControls c regs x new := ⟨hnew, fun f hf => by cases hop.symm.trans hf⟩
      refine (reads_gatesOf body).bind fun gates hgates => ?_
      rw [← hinside] at hgates
      have hloop : (gates.forM fun j => do
          let _ ← checkControls depth j regs).Reads s fun _ => ∀ j ∈ gates, s.Bounded (MayControl s regs) depth j :=
        Reads.forM fun j _ => (ih j).bind fun _ hj => reads_pure hj.1
      refine hloop.bind fun _ hall => reads_pure ⟨⟨⟨x, hx, c, new, hc, htakes⟩, ?_⟩, x, c, hx, hc, htakes⟩
      exact fun j hj => hall j ((holds_of_gates hx hgates j).mpr hj)
    · next hatomic hcomposite =>
      have htakes : TakesControls c regs x new := ⟨hnew, fun f hf => absurd hf (hatomic f)⟩
      exact reads_pure ⟨Store.bounded_of_inside hx (inside_eq_nil hcomposite) ⟨c, new, hc, htakes⟩, x, c, hx, hc,
        htakes⟩

variable {f : InstructionId → Action PUnit}

/-- A loop over the gates inside a gate changes what is inside the gate, if every round does so. -/
theorem frame_gates (hx : s.instruction? i = some x) (hgates : gates = x.inside.filter (isGate s))
    (hf : ∀ j t, (f j).Leaves t (Store.Frame (ReflTransGen t.Holds j) t)) :
    (gates.forM f).Leaves s (Store.Frame (TransGen s.Holds i) s) := by
  refine ends_forM (I := Store.Frame (TransGen s.Holds i) s) (fun j hj t hst => ?_) (.refl _ s)
  have hnested : ∀ k, ReflTransGen t.Holds j k → TransGen s.Holds i k := by
    rw [Store.holds_eq hst.shape]
    exact fun k hk => .head' ((holds_of_gates hx hgates j).mp hj) hk
  exact (hf j t).mono fun _ htu => hst.trans htu hnested

/-- Once the gates inside a gate are changed, the gate itself is. -/
theorem frame_gates_put (hx : s.instruction? i = some x) (hgates : gates = x.inside.filter (isGate s))
    (hf : ∀ j t, (f j).Leaves t (Store.Frame (ReflTransGen t.Holds j) t))
    (change : Instruction → Instruction) (hinside : ∀ y, (change y).inside = y.inside)
    (hbarrier : ∀ y, (change y).isBarrier = y.isBarrier) :
    (do
      gates.forM f
      let y ← instruction i
      put i (change y)).Leaves s (Store.Frame (ReflTransGen s.Holds i) s) := by
  have hloop := (frame_gates hx hgates hf).mono fun _ hst => hst.weaken fun _ => TransGen.to_reflTransGen
  refine hloop.bind fun _ t hst => reads_instruction.ends_bind (fun _ => hst) fun y hy => ?_
  refine ends_modify.mpr (hst.trans (R := (· = i)) (.put hy (hinside y) (hbarrier y) rfl) ?_)
  rintro k rfl
  exact .refl

/-- Conditioning changes nothing but the gate and what is inside it. -/
theorem frame_condition (depth : Nat) (i : InstructionId) (register value : Argument) (s : Store) :
    (condition depth i register value).Leaves s (Store.Frame (ReflTransGen s.Holds i) s) := by
  induction depth generalizing i s with
  | zero => exact ends_throw.mpr (.refl _ s)
  | succ depth ih =>
    refine reads_instruction.ends_bind (fun _ => .refl _ s) fun x hx => ?_
    have hleaf : (do
        let new ← checkCondition x register value
        put i { x with condition := some new }).Leaves s (Store.Frame (ReflTransGen s.Holds i) s) :=
      (reads_checkCondition x register value).ends_bind (fun _ => .refl _ s) fun new _ =>
        ends_modify.mpr (.put hx rfl rfl .refl)
    split
    · exact ends_fail.mpr (.refl _ s)
    · exact hleaf
    · exact hleaf
    · next name body inverted hop =>
      have hinside : x.inside = body := by rw [Instruction.inside, hop]
      refine (reads_checkCondition x register value).ends_bind (fun _ => .refl _ s) fun new _ => ?_
      refine (reads_gatesOf body).ends_bind (fun _ => .refl _ s) fun gates hgates => ?_
      refine (reads_checkConditionOnAll gates register value).ends_bind (fun _ => .refl _ s) fun _ _ => ?_
      exact frame_gates_put hx (hinside ▸ hgates) (fun j t => ih j t) (fun y => { y with condition := some new })
        (fun _ => rfl) fun _ => rfl

/-- Controlling changes nothing but the gate and what is inside it. -/
theorem frame_control (depth : Nat) (i : InstructionId) (regs : List Argument) (s : Store) :
    (control depth i regs).Leaves s (Store.Frame (ReflTransGen s.Holds i) s) := by
  induction depth generalizing i s with
  | zero => exact ends_throw.mpr (.refl _ s)
  | succ depth ih =>
    refine reads_instruction.ends_bind (fun _ => .refl _ s) fun x hx => ?_
    split
    · exact ends_fail.mpr (.refl _ s)
    · exact ends_fail.mpr (.refl _ s)
    · refine (reads_checkControls _ i regs).ends_bind (fun _ => .refl _ s) fun new _ => ?_
      exact ends_modify.mpr (.put hx rfl rfl .refl)
    · next name body inverted hop =>
      have hinside : x.inside = body := by rw [Instruction.inside, hop]
      refine (reads_checkControls _ i regs).ends_bind (fun _ => .refl _ s) fun new _ => ?_
      refine (reads_gatesOf body).ends_bind (fun _ => .refl _ s) fun gates hgates => ?_
      exact frame_gates_put hx (hinside ▸ hgates) (fun j t => ih j t)
        (fun y => { y with controls := y.controls ++ new }) (fun _ => rfl) fun _ => rfl

theorem length_flatMap_bits (rs : List Register) : (rs.flatMap Register.bits).length = (rs.map (·.size)).sum := by
  rw [length_flatMap]
  exact congrArg List.sum (map_congr_left fun r _ => r.length_bits)

/-- Controls that are not in use may be put on a gate. -/
theorem fits_controlled {registers new : List Register} (hfits : x.Fits registers) (hargs : x.splitArgs = (x.args, []))
    (hnew : ∀ r ∈ new, r ∈ registers ∧ r.kind = .quantum)
    (hfresh : Bit.Fresh (x.args ++ x.controlBits) (new.flatMap Register.bits)) :
    { x with controls := x.controls ++ new }.Fits registers := by
  have hdistinct := hfits.distinct
  rw [hargs, Bit.distinct_iff] at hdistinct
  refine ⟨hfits.qubits, hfits.clbits, ?_, ?_, hfits.condition⟩
  · show Bit.distinct ((x.controls ++ new).flatMap Register.bits ++ x.splitArgs.1)
    rw [hargs, flatMap_append, Bit.distinct_iff]
    refine (Perm.nodup_iff (Perm.map _ ?_)).mp
      (Bit.nodup_append_iff.mpr ⟨hfresh, (Perm.nodup_iff (perm_append_comm.map _)).mp hdistinct⟩)
    refine (perm_append_comm.append_left _).trans ?_
    rw [← append_assoc]
    exact perm_append_comm.append_right _
  · exact forall_mem_append.mpr ⟨hfits.controls, hnew⟩

/-- Controls that were checked may be put on a gate. -/
theorem safe_putControls {new : List Register} {c : Circuit} (hs : s.Orderly libs lost loose) (hi : i ∉ lost)
    (hx : s.instruction? i = some x)
    (hop : (∃ f, x.operation = .atomic f) ∨ ∃ name body inverted, x.operation = .composite name body inverted)
    (hc : s.circuit? x.circuit = some c) (hnew : ∀ r ∈ new, r ∈ c.registers ∧ r.kind = .quantum)
    (hfresh : Bit.Fresh (x.args ++ x.controlBits) (new.flatMap Register.bits))
    (hfamily : ∀ f, x.operation = .atomic f →
      (c.library.controlledBy (x.controlBits.length + (new.map (·.size)).sum) f).isSome) :
    (put i { x with controls := x.controls ++ new }).Safe libs lost loose s fun _ _ => True := by
  have hbits : { x with controls := x.controls ++ new }.controlBits =
      x.controlBits ++ new.flatMap Register.bits := flatMap_append
  have hargs : x.splitArgs = (x.args, []) := by
    rcases hop with ⟨f, hop⟩ | ⟨name, body, inverted, hop⟩
    · exact splitArgs_atomic hop
    · exact splitArgs_composite hop
  have hformed : s.Formed libs { x with controls := x.controls ++ new } := by
    have hold := hs.formed i x hi hx
    rcases hop with ⟨f, hop⟩ | ⟨name, body, inverted, hop⟩
    · have hfamily' := hfamily f hop
      rw [← length_flatMap_bits, ← length_append, ← hbits] at hfamily'
      refine ⟨fun lib hlib => ?_, fun _ _ => ⟨c, hc, ?_⟩, hold.finite⟩
      · have hproper := hold.proper lib hlib
        have hlibs := (hlib (by rw [Instruction.isAtomic]; dsimp only; rw [hop])).1
        have hlibrary : c.library = lib := Set.mem_singleton_iff.mp (hlibs ▸ hs.libraries _ c hc)
        unfold IsProper at hproper ⊢
        rw [hop] at hproper ⊢
        exact ⟨hproper.1, hproper.2.1, hproper.2.2.1, hproper.2.2.2.1, fun _ => hlibrary ▸ hfamily'⟩
      · unfold IsNative
        rw [hop]
        exact ⟨(hold.isNative hop hc).1, fun _ => hfamily'⟩
    · obtain ⟨hargs, d, hd, hname, hfree⟩ := hold.composite hop
      exact Store.formed_of_composite hop hargs hd hname hfree
  refine (safe_put (y := { x with controls := x.controls ++ new }) hs hx ⟨rfl, rfl, rfl, rfl⟩ ?_ hformed
    fun j hj => (hs.body i x hi hx j hj).congr rfl rfl).imp fun _ _ _ => trivial
  rintro - ⟨d, hd, hfits⟩
  cases hc.symm.trans hd
  exact ⟨c, hc, fits_controlled hfits hargs hnew hfresh⟩

theorem safe_control (depth : Nat) (hs : s.Orderly libs lost loose) (hi : i ∉ lost) :
    (control depth i regs).Safe libs lost loose s fun _ _ => True := by
  induction depth generalizing i s with
  | zero => exact safe_throw hs
  | succ depth ih =>
    refine reads_instruction.safe_bind hs fun x hx => ?_
    split
    · exact safe_fail hs
    · exact safe_fail hs
    · next f hop =>
      refine (reads_checkControls _ i regs).safe_bind hs fun new hnew => ?_
      obtain ⟨-, y, c, hy, hc, hregisters, hfamily⟩ := hnew
      obtain ⟨-, hdeclared, hfresh⟩ := checkControlRegisters_ok hregisters
      cases hx.symm.trans hy
      exact safe_putControls hs hi hx (.inl ⟨f, hop⟩) hc hdeclared hfresh hfamily
    · next name body inverted hop =>
      have hinside : x.inside = body := by rw [Instruction.inside, hop]
      refine (reads_checkControls _ i regs).safe_bind hs fun new hnew => ?_
      obtain ⟨hbounded, y, c, hy, hc, hregisters, -⟩ := hnew
      obtain ⟨-, hdeclared, hfresh⟩ := checkControlRegisters_ok hregisters
      cases hx.symm.trans hy
      refine (reads_gatesOf body).safe_bind hs fun gates hgates => ?_
      rw [← hinside] at hgates
      have hloop : (gates.forM fun j => control depth j regs).Safe libs lost loose s fun _ _ => True :=
        safe_forM hs fun j hj t ht _ => ih ht (hs.body i x hi hx j (mem_of_gates hgates j hj)).kept
      -- The gate is not inside itself, so that the loop leaves it as it is.
      have hframe := frame_gates hx hgates fun j t => frame_control depth j regs t
      have hboth : (gates.forM fun j => control depth j regs).Safe libs lost loose s
          fun _ t => t.instruction? i = some x := by
        refine (Ends.and hloop hframe).imp ?_ fun _ _ h => h.1
        rintro _ t ⟨⟨ht, hst, -⟩, hothers⟩
        exact ⟨ht, hst, (hothers.others i (hbounded.not_transGen)).trans hx⟩
      refine hboth.bind fun _ t ht hst hxt => reads_instruction.safe_bind ht fun y hy => ?_
      cases hxt.symm.trans hy
      obtain ⟨d, hd, hregisters, -⟩ := hst.circuits _ c hc
      exact safe_putControls ht hi hy (.inr ⟨name, body, inverted, hop⟩) hd
        (fun r hr => ⟨hregisters (hdeclared r hr).1, (hdeclared r hr).2⟩) hfresh
        fun f hf => by cases hop.symm.trans hf

theorem safe_controlAll (hs : s.Orderly libs lost loose)
    (his : ∀ i ∈ is, i ∉ lost) : (controlAll is regs).Safe libs lost loose s fun _ _ => True := by
  have hcheck : (checkControlsOfAll is regs).Reads s fun _ => ∀ j ∈ is, True :=
    reads_depth.bind fun n _ => Reads.forM fun j _ =>
      (reads_checkControls n j regs).bind fun _ _ => reads_pure trivial
  refine hcheck.safe_bind hs fun _ _ => reads_depth.safe_bind hs fun n _ => ?_
  exact safe_forM hs fun i hi t ht _ => safe_control n ht (his i hi)

/-! ## Copies -/

/-- The copy of a member may stand in its place. -/
theorem safe_copy (depth : Nat) (hs : s.Orderly libs lost loose) (hi : i ∉ lost) :
    (copy depth i).Safe libs lost loose s fun j t => s.StandsFor lost loose i t j := by
  induction depth generalizing i s with
  | zero => exact safe_throw hs
  | succ depth ih =>
    refine reads_instruction.safe_bind hs fun x hx => ?_
    have hformed := hs.formed i x hi hx
    have hcreate : ∀ {y : Instruction} {t : Store}, t.Orderly libs lost loose → s.Grows loose t → t.Formed libs y →
        (∀ j ∈ y.inside, t.Part lost loose y j) → x.Alike y → y.controls = x.controls → y.condition = x.condition →
        (create y).Safe libs lost loose t fun j u => s.StandsFor lost loose i u j := by
      intro y t ht hst hy hbody hxy hcontrols hcondition
      refine (safe_create ht hy hbody).imp ?_
      rintro j u ⟨rfl, rfl⟩
      exact .push ht hst hx hxy hcontrols hcondition
    split
    · next name body inverted hop =>
      have hinside := hs.part hi hx hop
      have hloop : (body.mapM (copy depth)).Safe libs lost loose s fun body' t =>
          Forall₂ (fun _ j' => t.Part lost loose x j') body body' := by
        refine safe_mapM hs (fun _ j' t u h htu => h.mono htu) fun j hj t ht hst => ?_
        exact (ih ht (hinside j hj).kept).imp fun j' u hj' => hj'.part ((hinside j hj).mono hst)
      refine hloop.bind fun body' t ht hst hbody' => hcreate ht hst ((hformed.putBody hop _ _).mono hst) ?_
        (alike_composite hop _ _ _) rfl rfl
      · intro j' hj'
        obtain ⟨_, -, hpart⟩ := exists_of_forall₂ hbody' j' hj'
        exact hpart.congr rfl rfl
    · exact hcreate hs (.refl s) hformed (hs.body i x hi hx) (.refl x) rfl rfl

end Action

end QasmCircuit
