import QasmCircuit.Proofs.Lowering.Condition

/-!
# Failed modifiers

A modifier checks before it changes anything, and the question is whether its checks cover all that can go wrong
later. A condition depends on the circuit alone, which is the same for all that is inside a gate: once the gate passes,
everything does. Controls are checked down to the last level, but a gate that stands at two places is controlled twice,
and the second time its controls are in use already (`Store.Controllable`). Inversion checks nothing but measurements,
so that links of the library that lead nowhere are found too late.

> `Call.unchanged_of_fails`: where the checks cover everything, a modifier that fails changes nothing.
-/

namespace QasmCircuit

open Outcome Relation List
open Option (map_some any_some)
open Instruction (isBarrier isMeasure IsUnitary)

variable {s t u : Store} {i j : InstructionId} {n : Nat} {K lost loose : Set InstructionId}
  {regs : List Argument} {libs : Set Library} {lib : Library} {is : List InstructionId}

namespace Store

variable {k : InstructionId} {x : Instruction}

/-- All instructions that were there, and all circuits, are as they were. -/
structure Unchanged (s t : Store) : Prop where
  instructions : ∀ i x, s.instruction? i = some x → t.instruction? i = some x
  circuits : t.circuits = s.circuits

theorem Unchanged.refl (s : Store) : s.Unchanged s := ⟨fun _ _ hx => hx, rfl⟩

theorem Unchanged.trans (hst : s.Unchanged t) (htu : t.Unchanged u) : s.Unchanged u :=
  ⟨fun i x hx => htu.instructions i x (hst.instructions i x hx), htu.circuits.trans hst.circuits⟩

/-! ## The gates inside a gate -/

/-- What stands in a body is there. -/
def Closed (s : Store) : Prop := ∀ i x, s.instruction? i = some x → ∀ j ∈ x.inside, ∃ y, s.instruction? j = some y

theorem Orderly.closed (hs : s.Orderly libs lost loose) :
    s.Closed := by
  intro i x hx j hj
  exact ⟨_, Array.getElem?_eq_getElem (hs.inside_lt i x hx j hj)⟩

/-- The gates that stand in the body of a gate. Barriers are not among them. -/
def gatesIn (s : Store) (i : InstructionId) : List InstructionId :=
  ((s.shape i).elim [] Prod.fst).filter (Action.isGate s)

/-- A gate and the gates inside it, at all places, to a number of levels. -/
def gatesBelow (s : Store) : Nat → InstructionId → List InstructionId
  | 0, _ => []
  | n + 1, i => i :: (s.gatesIn i).flatMap (s.gatesBelow n)

theorem gatesIn_of_some (hx : s.instruction? i = some x) : s.gatesIn i = x.inside.filter (Action.isGate s) := by
  rw [gatesIn, shape, hx]
  rfl

theorem mem_gatesIn (hx : s.instruction? i = some x) : j ∈ s.gatesIn i ↔ s.Holds i j :=
  Action.holds_of_gates hx (gatesIn_of_some hx) j

theorem exists_of_shape (h : t.shape = s.shape) (hx : s.instruction? i = some x) :
    ∃ y, t.instruction? i = some y ∧ y.inside = x.inside ∧ y.isBarrier = x.isBarrier := by
  have hshape := congrFun h i
  rw [shape, shape, hx, map_some] at hshape
  obtain ⟨y, hy, heq⟩ := Option.map_eq_some_iff.mp hshape
  exact ⟨y, hy, congrArg Prod.fst heq, congrArg Prod.snd heq⟩

theorem Closed.congr (hs : s.Closed) (h : t.shape = s.shape) : t.Closed := by
  intro i y hy j hj
  obtain ⟨x, hx, hinside, -⟩ := exists_of_shape h.symm hy
  obtain ⟨z, hz⟩ := hs i x hx j (hinside ▸ hj)
  obtain ⟨w, hw, -⟩ := exists_of_shape h hz
  exact ⟨w, hw⟩

theorem isGate_congr (h : t.shape = s.shape) : Action.isGate t = Action.isGate s := by
  funext i
  have hshape := congrFun h i
  rw [shape, shape] at hshape
  rw [Action.isGate, Action.isGate]
  cases hx : s.instruction? i with
  | none =>
    rw [hx, Option.map_none, Option.map_eq_none_iff] at hshape
    rw [hshape]
  | some x =>
    obtain ⟨y, hy, -, hbarrier⟩ := exists_of_shape h hx
    rw [hy, any_some, any_some, hbarrier]

theorem gatesBelow_congr (h : t.shape = s.shape) (n : Nat) : t.gatesBelow n = s.gatesBelow n := by
  induction n with
  | zero => rfl
  | succ n ih =>
    funext i
    rw [gatesBelow, gatesBelow, gatesIn, gatesIn, h, isGate_congr h, ih]

/-- What was checked below a gate stays checked where nothing is changed. -/
theorem Bounded.congr {P : Instruction → Prop} {Q : InstructionId → Prop} (h : s.Bounded P n i) (hst : s.Frame Q t)
    (hQ : ∀ k ∈ s.gatesBelow n i, ¬ Q k) : t.Bounded P n i := by
  induction n generalizing i with
  | zero => exact h
  | succ n ih =>
    obtain ⟨⟨x, hx, hP⟩, hall⟩ := h
    refine ⟨⟨x, (hst.others i (hQ i mem_cons_self)).trans hx, hP⟩, ?_⟩
    rw [holds_eq hst.shape]
    intro j hj
    refine ih (hall j hj) fun k hk => hQ k (mem_cons_of_mem i ?_)
    exact mem_flatMap.mpr ⟨j, (mem_gatesIn hx).mpr hj, hk⟩

end Store

/-! ## Controls -/

/-- An instruction with new controls. Barriers have none. -/
def Instruction.controlled (new : List Register) (x : Instruction) : Instruction :=
  if x.isBarrier then x else { x with controls := x.controls ++ new }

namespace Instruction

variable (new : List Register) (x : Instruction)

theorem controlled_of_not {x : Instruction} (h : x.isBarrier = false) :
    x.controlled new = { x with controls := x.controls ++ new } := by
  rw [controlled, h]
  rfl

theorem controlled_keeps : (x.controlled new).operation = x.operation ∧ (x.controlled new).circuit = x.circuit := by
  unfold controlled
  split
  · exact ⟨rfl, rfl⟩
  · exact ⟨rfl, rfl⟩

end Instruction

def Argument.registers (args : List Argument) : List Register :=
  args.filterMap fun
    | .register r => some r
    | _ => none

theorem Argument.registers_map (new : List Register) : registers (new.map .register) = new := by
  rw [registers, filterMap_map]
  exact filterMap_some

namespace Store

namespace Changed

variable {f : Instruction → Instruction} {L : Set InstructionId}

/-- Changes at different places add up. -/
theorem trans (h : s.Changed f K t) (h' : t.Changed f L u) (hKL : ∀ i ∈ K, i ∉ L) : s.Changed f (K ∪ L) u where
  keeps := h.keeps
  circuits := h'.circuits.trans h.circuits
  size := h'.size.trans h.size
  inside i hi x hx := by
    by_cases hK : i ∈ K
    · exact (h'.outside i (hKL i hK)).trans (h.inside i hK x hx)
    · exact h'.inside i (hi.resolve_left hK) x ((h.outside i hK).trans hx)
  outside i hi := by
    rw [Set.mem_union, not_or] at hi
    rw [h'.outside i hi.2, h.outside i hi.1]

theorem frame (h : s.Changed f K t) : s.Frame (· ∈ K) t where
  shape := by
    funext i
    rw [shape, shape]
    cases hx : s.instruction? i with
    | none => rw [h.instruction?_eq_none hx]
    | some x =>
      obtain ⟨y, hy, hop, -⟩ := h.exists_of_some hx
      rw [hy, map_some, map_some, Instruction.inside, isBarrier, hop]
      rfl
  circuits := h.circuits
  others := h.outside

end Changed

variable {Q : InstructionId → Prop}

/-- Nothing stands in the way of new controls: all checks pass, down to the last level, and nothing is measured. -/
structure Controllable (s : Store) (regs : List Argument) (n : Nat) (i : InstructionId) : Prop where
  bounded : s.Bounded (Action.MayControl s regs) n i
  gate : Action.isGate s i
  unitary : ∀ k ∈ s.gatesBelow n i, ∀ x, s.instruction? k = some x → x.isMeasure = false

theorem mayControl_congr (h : t.circuits = s.circuits) : Action.MayControl t regs = Action.MayControl s regs := by
  unfold Action.MayControl circuit?
  rw [h]

theorem Controllable.congr (h : s.Controllable regs n i) (hst : s.Frame Q t)
    (hQ : ∀ k ∈ s.gatesBelow n i, ¬ Q k) : t.Controllable regs n i where
  bounded := by
    rw [mayControl_congr hst.circuits]
    exact h.bounded.congr hst hQ
  gate := by
    rw [isGate_congr hst.shape]
    exact h.gate
  unitary k hk x hx := by
    rw [gatesBelow_congr hst.shape] at hk
    rw [hst.others k (hQ k hk)] at hx
    exact h.unitary k hk x hx

theorem Controllable.of_holds (h : s.Controllable regs (n + 1) i) (hij : s.Holds i j) : s.Controllable regs n j := by
  obtain ⟨⟨x, hx, -⟩, hall⟩ := h.bounded
  refine ⟨hall j hij, ?_, fun k hk y hy => h.unitary k (mem_cons_of_mem i ?_) y hy⟩
  · obtain ⟨-, y, hy, hbarrier⟩ := (holds_iff hx).mp hij
    rw [Action.isGate, hy, any_some, hbarrier]
    rfl
  · exact mem_flatMap.mpr ⟨j, (mem_gatesIn hx).mpr hij, hk⟩

end Store

namespace Action

open Store

variable {x : Instruction}

/-- Where all checks pass, the checks of controls come to an end. -/
theorem returns_checkControls (hclosed : s.Closed) (h : s.Bounded (MayControl s regs) n i) :
    (checkControls n i regs).Returns s (Argument.registers regs) s := by
  induction n generalizing i with
  | zero => exact h.elim
  | succ n ih =>
    obtain ⟨⟨x, hx, c, new, hc, hnew, hfamily⟩, hall⟩ := h
    have hregs := congrArg Argument.registers (checkControlRegisters_ok hnew).1
    rw [Argument.registers_map] at hregs
    subst hregs
    refine (returns_instruction hx).bind ((returns_circuit hc).bind ?_)
    rw [hnew]
    refine Returns.bind (rfl : (lift (Except.ok _)).Returns s _ s) ?_
    split
    · next f hop =>
      obtain ⟨g, hg⟩ := Option.isSome_iff_exists.mp (hfamily f hop)
      dsimp only
      rw [controlledFamily_eq_ok.mpr hg]
      rfl
    · next name body inverted hop =>
      have hinside : x.inside = body := by rw [Instruction.inside, hop]
      refine (returns_gatesOf fun j hj => hclosed i x hx j (hinside ▸ hj)).bind ?_
      refine (returns_forM fun j hj => ?_).bind rfl
      exact (ih (hall j ((holds_of_gates hx (congrArg _ hinside.symm) j).mp hj))).bind rfl
    · rfl

/-- One gate after the other is controlled, if no gate stands at two places: the changes of one are none of the
checks of the others. -/
theorem ends_control_forM {js : List InstructionId}
    (hstep : ∀ (s : Store) (j : InstructionId), s.Closed → s.Controllable regs n j → (s.gatesBelow n j).Nodup →
      (control n j regs).Attains s
        (fun _ t => s.Changed (.controlled (Argument.registers regs)) { k | k ∈ s.gatesBelow n j } t))
    (hclosed : s.Closed) (hjs : ∀ j ∈ js, s.Controllable regs n j) (hnodup : (js.flatMap (s.gatesBelow n)).Nodup) :
    (js.forM fun j => control n j regs).Attains s
      fun _ t => s.Changed (.controlled (Argument.registers regs)) { k | k ∈ js.flatMap (s.gatesBelow n) } t := by
  induction js generalizing s with
  | nil =>
    exact ⟨Instruction.controlled_keeps _, rfl, rfl, forall_mem_nil _, fun _ _ => rfl⟩
  | cons j js ih =>
    rw [forall_mem_cons] at hjs
    rw [flatMap_cons, nodup_append] at hnodup
    obtain ⟨hfirst, hrest, hdisjoint⟩ := hnodup
    refine (hstep s j hclosed hjs.1 hfirst).bind fun _ t hst => ?_
    have hbelow := gatesBelow_congr hst.frame.shape n
    have hjs' : ∀ k ∈ js, t.Controllable regs n k := by
      intro k hk
      refine (hjs.2 k hk).congr hst.frame fun l hl hl' => ?_
      exact hdisjoint l hl' l (mem_flatMap.mpr ⟨k, hk, hl⟩) rfl
    refine (ih (hclosed.congr hst.frame.shape) hjs' (by rw [hbelow]; exact hrest)).map fun _ u htu => ?_
    rw [hbelow] at htu
    have hunion : { k | k ∈ (j :: js).flatMap (s.gatesBelow n) } =
        { k | k ∈ s.gatesBelow n j } ∪ { k | k ∈ js.flatMap (s.gatesBelow n) } := Set.ext fun k => mem_append
    rw [hunion]
    exact hst.trans htu fun k hk hk' => hdisjoint k hk k hk' rfl

/-- What passes all checks is controlled, if no gate stands at two places. -/
theorem ends_control (hclosed : s.Closed) (h : s.Controllable regs n i) (hnodup : (s.gatesBelow n i).Nodup) :
    (control n i regs).Attains s
      fun _ t => s.Changed (.controlled (Argument.registers regs)) { k | k ∈ s.gatesBelow n i } t := by
  induction n generalizing s i with
  | zero => exact h.bounded.elim
  | succ n ih =>
    have hcheck := returns_checkControls hclosed h.bounded
    obtain ⟨⟨x, hx, -⟩, -⟩ := h.bounded
    have hself : i ∈ s.gatesBelow (n + 1) i := mem_cons_self
    have hbarrier : x.isBarrier = false := by
      have hgate := h.gate
      rw [isGate, hx, any_some, Bool.not_eq_true'] at hgate
      exact hgate
    have hput : ∀ t : Store, t.instruction? i = some x → t.Changed (.controlled (Argument.registers regs)) {i}
        (t.put i { x with controls := x.controls ++ Argument.registers regs }) := fun t ht =>
      Instruction.controlled_of_not _ hbarrier ▸ changed_put (Instruction.controlled_keeps _) ht
    refine (returns_instruction hx).ends_bind.mpr ?_
    split
    · next hop =>
      rw [isBarrier, hop] at hbarrier
      cases hbarrier
    · next hop =>
      have hunitary := h.unitary i hself x hx
      rw [isMeasure, hop] at hunitary
      cases hunitary
    · next f hop =>
      have hone : { k | k ∈ s.gatesBelow (n + 1) i } = {i} := by
        rw [gatesBelow, gatesIn_of_some hx, Instruction.inside, hop]
        exact Set.ext fun k => mem_singleton
      rw [hone]
      exact hcheck.ends_bind.mpr (ends_modify.mpr (hput s hx))
    · next name body inverted hop =>
      have hinside : x.inside = body := by rw [Instruction.inside, hop]
      have hgates : (gatesOf body).Returns s (s.gatesIn i) s := by
        rw [gatesIn_of_some hx, hinside]
        exact returns_gatesOf fun j hj => hclosed i x hx j (hinside ▸ hj)
      obtain ⟨hout, hin⟩ := nodup_cons.mp hnodup
      have hloop := ends_control_forM (fun s j => ih) hclosed (fun j hj => h.of_holds ((mem_gatesIn hx).mp hj)) hin
      refine hcheck.ends_bind.mpr (hgates.ends_bind.mpr (hloop.bind fun _ t hst => ?_))
      have hy : t.instruction? i = some x := (hst.outside i hout).trans hx
      refine (returns_instruction hy).ends_bind.mpr (ends_modify.mpr ?_)
      have hunion : { k | k ∈ s.gatesBelow (n + 1) i } = { k | k ∈ (s.gatesIn i).flatMap (s.gatesBelow n) } ∪ {i} :=
        Set.ext fun k => mem_cons.trans or_comm
      rw [hunion]
      exact hst.trans (hput t hy) fun k hk hk' => hout (hk' ▸ hk)

section

variable (hs : s.Orderly libs lost loose)

include hs

/-- What stands in a gate is known and is no measurement, on all levels. -/
theorem unitary_of_gatesBelow (hi : s.Known lost i) (hunitary : ∀ x, s.instruction? i = some x → x.isMeasure = false) :
    ∀ k ∈ s.gatesBelow n i, ∀ x, s.instruction? k = some x → x.isMeasure = false := by
  induction n generalizing i with
  | zero => exact forall_mem_nil _
  | succ n ih =>
    intro k hk
    rcases mem_cons.mp hk with rfl | hk
    · exact hunitary
    · obtain ⟨j, hj, hk⟩ := mem_flatMap.mp hk
      obtain ⟨x, hx⟩ := hi.exists_instruction
      have hpart := hs.body i x hi.1 hx j ((holds_iff hx).mp ((mem_gatesIn hx).mp hj)).1
      refine ih hpart.known (fun y hy => ?_) k hk
      obtain ⟨z, hz, hmeasure, -⟩ := hpart.scope
      cases hz.symm.trans hy
      exact hmeasure

theorem unchanged_control (hi : s.Known lost i) (hnodup : (s.gatesBelow n i).Nodup) :
    (control n i regs).Ends s (fun _ _ => True) fun _ t => t = s := by
  obtain ⟨x, hx⟩ := hi.exists_instruction
  by_cases hcan : s.Controllable regs n i
  · exact (ends_control hs.closed hcan hnodup).ends fun _ _ _ => trivial
  · -- A check fails, and before the checks nothing is changed.
    cases n with
    | zero => exact ends_throw.mpr rfl
    | succ n =>
      have hbounded : x.isBarrier = false → x.isMeasure = false → ¬ s.Bounded (MayControl s regs) (n + 1) i := by
        intro hbarrier hmeasure hbounded
        refine hcan ⟨hbounded, ?_, unitary_of_gatesBelow hs hi fun y hy => ?_⟩
        · rw [isGate, hx, any_some, hbarrier]
          rfl
        · cases hx.symm.trans hy
          exact hmeasure
      refine (returns_instruction hx).ends_bind.mpr ?_
      split
      · exact ends_fail.mpr rfl
      · exact ends_fail.mpr rfl
      · next hop =>
        refine (reads_checkControls _ i regs).ends_bind (fun _ => rfl) fun _ hnew => absurd hnew.1 (hbounded ?_ ?_)
        · rw [isBarrier, hop]
        · rw [isMeasure, hop]
      · next hop =>
        refine (reads_checkControls _ i regs).ends_bind (fun _ => rfl) fun _ hnew => absurd hnew.1 (hbounded ?_ ?_)
        · rw [isBarrier, hop]
        · rw [isMeasure, hop]

theorem unchanged_controlAll
    (his : ∀ i ∈ is, s.Known lost i ∧ isGate s i ∧ ∀ x, s.instruction? i = some x → x.isMeasure = false)
    (hnodup : (is.flatMap (s.gatesBelow (s.instructions.size + 1))).Nodup) :
    (controlAll is regs).Ends s (fun _ _ => True) fun _ t => t = s := by
  have hcheck : (checkControlsOfAll is regs).Reads s fun _ =>
      ∀ i ∈ is, s.Bounded (MayControl s regs) (s.instructions.size + 1) i := by
    refine reads_depth.bind fun n hn => Reads.forM fun i _ => (reads_checkControls n i regs).bind fun _ hnew => ?_
    exact reads_pure (hn ▸ hnew.1)
  refine hcheck.ends_bind (fun _ => rfl) fun _ hall => ends_bind.mpr (ends_depth.mpr ?_)
  refine (ends_control_forM (fun s j => ends_control) hs.closed (fun i hi => ?_) hnodup).ends fun _ _ _ => trivial
  obtain ⟨hknown, hgate, hunitary⟩ := his i hi
  exact ⟨hall i hi, hgate, unitary_of_gatesBelow hs hknown hunitary⟩

end

end Action

/-! ## Conditions -/

namespace Store

/-- Nothing below an instruction contains itself. -/
def NestedBelow (s : Store) (i : InstructionId) : Prop :=
  ∀ j, ReflTransGen s.Contains i j → ¬ TransGen s.Contains j j

variable {x : Instruction} {P : Instruction → Prop}

/-- What stands below an instruction is known, and it belongs to the same circuit. -/
theorem Orderly.known_below (hs : s.Orderly libs lost loose) (hi : s.Known lost i) (hx : s.instruction? i = some x)
    (hij : ReflTransGen s.Contains i j) : s.Known lost j ∧ ∃ y, s.instruction? j = some y ∧ y.circuit = x.circuit := by
  induction hij with
  | refl => exact ⟨hi, x, hx, rfl⟩
  | tail _ hlast ih =>
    obtain ⟨hknown, y, hy, hcircuit⟩ := ih
    obtain ⟨z, hz, hmem⟩ := hlast
    cases hy.symm.trans hz
    have hpart := hs.body _ y hknown.1 hy _ hmem
    obtain ⟨w, hw, hhome⟩ := hpart.exists_instruction
    exact ⟨hpart.known, w, hw, hhome.trans hcircuit⟩

theorem nests_of_nestedBelow (hs : s.Orderly libs lost loose) (hi : s.Known lost i) (hnested : s.NestedBelow i)
    (hP : ∀ j y, ReflTransGen s.Contains i j → s.instruction? j = some y → y.isComposite = false → P y) :
    s.Nests P s.instructions.size (s.element i) := by
  obtain ⟨x, hx⟩ := hi.exists_instruction
  have hnests : s.Nests P (Finset.range s.instructions.size).card (s.element i) := by
    refine nests_of_acyclic fun j hij => ?_
    obtain ⟨-, y, hy, -⟩ := hs.known_below hi hx hij
    exact ⟨Finset.mem_range.mpr (instruction?_lt hy), ⟨y, hy, hP j y hij hy⟩, hnested j hij⟩
  rwa [Finset.card_range] at hnests

end Store

namespace Action

open Store

variable {x : Instruction} {register value : Argument}

/-- What a condition has to pass before it is put on an instruction. -/
def MayCondition (s : Store) (register value : Argument) (g : Condition) (x : Instruction) : Prop :=
  ∃ c, s.circuit? x.circuit = some c ∧ c.checkCondition register value = .ok g

theorem reads_mayCondition (x : Instruction) :
    (checkCondition x register value).Reads s fun g => MayCondition s register value g x :=
  reads_circuit.bind fun c hc => reads_lift.imp fun _ hnew => ⟨c, hc, asModifier_eq_ok.mp hnew⟩

section

variable (hs : s.Orderly libs lost loose)

include hs

/-- A condition that an instruction passes goes to everything below it. -/
theorem ends_condition_of_may {g : Condition}
    (hi : s.Known lost i) (hnested : s.NestedBelow i) (hx : s.instruction? i = some x) (hbarrier : x.isBarrier = false)
    (hmay : MayCondition s register value g x) (hst : s.Guarded g K t) :
    (condition (s.instructions.size + 1) i register value).Attains t
      fun _ u => s.Guarded g (K ∪ { j | ReflTransGen s.Contains i j }) u := by
  obtain ⟨c, hc, hcheck⟩ := hmay
  obtain ⟨rfl, rfl, -⟩ := Circuit.checkCondition_ok hcheck
  exact ends_condition hc hcheck hx hbarrier (fun j hij => (hs.known_below hi hx hij).2)
    (nests_of_nestedBelow hs hi hnested fun _ _ _ _ _ => trivial) hst

theorem unchanged_condition (hi : s.Known lost i) (hnested : s.NestedBelow i) :
    (condition (s.instructions.size + 1) i register value).Ends s (fun _ _ => True) fun _ t => t = s := by
  obtain ⟨x, hx⟩ := hi.exists_instruction
  by_cases hcan : x.isBarrier = false ∧ ∃ g, MayCondition s register value g x
  · obtain ⟨hbarrier, g, hmay⟩ := hcan
    exact (ends_condition_of_may hs hi hnested hx hbarrier hmay (.refl g s)).ends fun _ _ _ => trivial
  · refine (returns_instruction hx).ends_bind.mpr ?_
    split
    · exact ends_fail.mpr rfl
    all_goals
      next hop =>
      refine (reads_mayCondition x).ends_bind (fun _ => rfl) fun g hg => absurd ⟨?_, g, hg⟩ hcan
      rw [isBarrier, hop]

theorem unchanged_conditionAll
    (his : ∀ i ∈ is, s.Known lost i ∧ s.NestedBelow i ∧ isGate s i) :
    (conditionAll is register value).Ends s (fun _ _ => True) fun _ t => t = s := by
  have hcheck : (checkConditionOnAll is register value).Reads s fun _ =>
      ∀ i ∈ is, ∃ x g, s.instruction? i = some x ∧ MayCondition s register value g x :=
    Reads.forM fun i _ => reads_instruction.bind fun x hx => (reads_mayCondition x).bind fun g hg =>
      reads_pure ⟨x, g, hx, hg⟩
  refine hcheck.ends_bind (fun _ => rfl) fun _ hall => ends_bind.mpr (ends_depth.mpr ?_)
  cases is with
  | nil => trivial
  | cons i₀ is =>
    -- All checks give the same condition, since it is what the call names.
    obtain ⟨_, g, -, c, hc, hg⟩ := hall i₀ mem_cons_self
    obtain ⟨hregister, hvalue, -⟩ := Circuit.checkCondition_ok hg
    subst hregister hvalue
    refine (ends_condition_forM (fun i hi K t hst => ?_) (.refl g s)).ends fun _ _ _ => trivial
    obtain ⟨hknown, hnested, hgate⟩ := his i hi
    obtain ⟨x, g', hx, hmay⟩ := hall i hi
    have hbarrier : x.isBarrier = false := by
      rw [isGate, hx, any_some, Bool.not_eq_true'] at hgate
      exact hgate
    obtain ⟨c', hc', hg'⟩ := hmay
    obtain ⟨hfirst, hsecond, -⟩ := Circuit.checkCondition_ok hg'
    obtain rfl : g = g' := Prod.ext (Argument.register.inj hfirst) (Datum.int.inj (Argument.datum.inj hsecond))
    exact ends_condition_of_may hs hknown hnested hx hbarrier ⟨c', hc', hg'⟩ hst

end

end Action

/-! ## Inversion -/

namespace Library

/-- There is one library only, and its links lead to families that fit. -/
def AreComplete (libs : Set Library) : Prop := ∃ lib, libs = {lib} ∧ lib.IsRegular ∧ lib.HasInverses

end Library

namespace Store

def IsLeaf (s : Store) (i : InstructionId) : Prop := ∀ x, s.instruction? i = some x → x.isComposite = false

end Store

namespace Action

open Store

variable {c : CircuitId}

/-- The inverse of an instruction without a body is a new instruction. -/
theorem unchanged_inverse_leaf (hleaf : s.IsLeaf i) : (inverse n i).Leaves s s.Unchanged := by
  cases n with
  | zero => exact ends_throw.mpr (.refl s)
  | succ n =>
    refine reads_instruction.ends_bind (fun _ => .refl s) fun x hx => ?_
    split
    · refine ends_ite (fun _ => .refl s) fun _ => reads_lift.ends_bind (fun _ => .refl s) fun params _ => ?_
      refine reads_circuit.ends_bind (fun _ => .refl s) fun c _ => reads_lift.ends_bind (fun _ => .refl s) fun g _ => ?_
      exact ends_modifyGet.mpr ⟨fun _ _ hy => instruction?_push_of_some hy, rfl⟩
    · exact ends_pure.mpr (.refl s)
    · exact ends_fail.mpr (.refl s)
    · next hop =>
      have hcomposite := hleaf x hx
      exact absurd_leaf hcomposite hop

theorem unchanged_inverse_mapM {f : InstructionId → Action InstructionId}
    (hstep : ∀ (t : Store) (i : InstructionId), t.IsLeaf i → (f i).Leaves t t.Unchanged)
    (his : ∀ i ∈ is, s.Known lost i ∧ s.IsLeaf i) : (is.mapM f).Leaves s s.Unchanged := by
  refine ends_mapM (I := fun _ _ => s.Unchanged) (fun done i rest _ t hsplit hst => ?_) (.refl s)
  obtain ⟨hknown, hleaf⟩ := his i (hsplit ▸ mem_append_right done mem_cons_self)
  obtain ⟨x, hx⟩ := hknown.exists_instruction
  have hleaf' : t.IsLeaf i := by
    intro y hy
    cases (hst.instructions i x hx).symm.trans hy
    exact hleaf x hx
  exact (hstep t i hleaf').mono fun _ => hst.trans

/-- A gate is changed after all that is in it has been inverted. -/
theorem unchanged_inverse (hs : s.Orderly libs lost loose) (hi : s.Known lost i)
    (hleaves : ∀ j, s.Contains i j → s.IsLeaf j) : (inverse n i).Ends s (fun _ _ => True) fun _ t => s.Unchanged t := by
  obtain ⟨x, hx⟩ := hi.exists_instruction
  cases hcomposite : x.isComposite with
  | false =>
    refine (unchanged_inverse_leaf fun y hy => ?_).map fun _ _ _ => trivial
    cases hx.symm.trans hy
    exact hcomposite
  | true =>
    cases n with
    | zero => exact ends_throw.mpr (.refl s)
    | succ n =>
      obtain ⟨name, body, inverted, hop⟩ := isComposite_iff.mp hcomposite
      refine (returns_instruction hx).ends_bind.mpr ?_
      rw [hop]
      have hloop := unchanged_inverse_mapM (f := inverse n) (fun _ _ => unchanged_inverse_leaf)
        (fun j (hj : j ∈ body.reverse) => by
          have hmem := mem_reverse.mp hj
          refine ⟨(hs.part hi.1 hx hop j hmem).known, hleaves j ⟨x, hx, ?_⟩⟩
          rw [Instruction.inside, hop]
          exact hmem)
      exact hloop.bind fun _ _ _ => ends_bind.mpr (ends_modify.mpr trivial)

theorem unchanged_inverseAll (his : ∀ i ∈ is, s.Known lost i ∧ s.IsLeaf i) :
    (is.mapM fun i => do inverse (← depth) i).Ends s (fun _ _ => True) fun _ t => s.Unchanged t :=
  (unchanged_inverse_mapM (fun _ _ hleaf => ends_bind.mpr (unchanged_inverse_leaf hleaf)) his).map fun _ _ _ => trivial

/-- A circuit is inverted if nothing is measured in it. -/
theorem ends_inverseCircuit_of_some {x : Circuit} {Q : Unit → Store → Prop} {E : Fault → Store → Prop}
    (hx : s.circuit? c = some x) (hE : ∀ e, E e s)
    (h : (∀ i ∈ x.data, ∃ y, s.instruction? i = some y ∧ y.IsUnitary) → (do
        let data ← x.data.reverse.mapM (inverse (s.instructions.size + 1))
        let y ← circuit c
        putCircuit c { y with data }).Ends s Q E) : (inverseCircuit c).Ends s Q E := by
  refine (returns_circuit hx).ends_bind.mpr ?_
  refine (Reads.forM (P := fun i => ∃ y, s.instruction? i = some y ∧ y.IsUnitary) fun i _ =>
    reads_instruction.bind fun y hy => ?_).ends_bind hE fun _ hall => ends_bind.mpr (ends_depth.mpr (h hall))
  split
  · exact reads_fail
  · next hop => exact reads_pure ⟨y, hy, hop⟩

theorem unchanged_inverseCircuit (hs : s.Orderly libs lost loose)
    (hleaves : ∀ x, s.circuit? c = some x → ∀ i ∈ x.data, s.IsLeaf i) :
    (inverseCircuit c).Ends s (fun _ _ => True) fun _ t => s.Unchanged t := by
  cases hx : s.circuit? c with
  | none => exact reads_circuit.ends_bind (fun _ => .refl s) fun x hx' => by cases hx.symm.trans hx'
  | some x =>
    refine ends_inverseCircuit_of_some hx (fun _ => .refl s) fun _ => ?_
    have hloop := unchanged_inverse_mapM (f := inverse (s.instructions.size + 1)) (fun _ _ => unchanged_inverse_leaf)
      (fun i (hi : i ∈ x.data.reverse) =>
        ⟨(hs.data c x hx i (mem_reverse.mp hi)).known, hleaves x hx i (mem_reverse.mp hi)⟩)
    exact hloop.bind fun _ t hst => reads_circuit.ends_bind (fun _ => hst) fun y _ => ends_modify.mpr trivial

/-! With all links in place nothing but a measurement can fail. -/

theorem nests_unitary (hs : s.Orderly libs lost loose) (hi : s.Known lost i) (hnested : s.NestedBelow i)
    (hunitary : ∀ x, s.instruction? i = some x → x.IsUnitary) :
    s.Nests IsUnitary s.instructions.size (s.element i) := by
  obtain ⟨x, hx⟩ := hi.exists_instruction
  refine nests_of_nestedBelow hs hi hnested fun j y hij hy _ hop => ?_
  rcases ReflTransGen.cases_tail hij with rfl | ⟨k, hik, z, hz, hj⟩
  · exact hunitary y hy hop
  · obtain ⟨w, hw, hmeasure, -⟩ := (hs.body k z (hs.known_below hi hx hik).1.1 hz j hj).scope
    cases hy.symm.trans hw
    rw [isMeasure, hop] at hmeasure
    cases hmeasure

section

variable (hs : s.Sound lib lost loose)

include hs

theorem ends_inverse_of_complete (hlib : lib.HasInverses) (hi : s.Known lost i)
    (hnested : s.NestedBelow i) : (inverse (s.instructions.size + 1) i).Ends s (fun _ _ => True) fun _ t => t = s := by
  obtain ⟨x, hx⟩ := hi.exists_instruction
  by_cases hunitary : x.IsUnitary
  · have hnests := nests_unitary hs.toOrderly hi hnested fun y hy => by
      cases hx.symm.trans hy
      exact hunitary
    exact (inverts_inverse hs.regular hlib _ s i hs hi hnests).ends fun _ _ _ => trivial
  · refine (returns_instruction hx).ends_bind.mpr ?_
    rw [not_not.mp hunitary]
    exact ends_fail.mpr rfl

theorem ends_inverseAll_of_complete (hlib : lib.HasInverses)
    (his : ∀ i ∈ is, s.Known lost i ∧ s.NestedBelow i ∧ ∀ x, s.instruction? i = some x → x.IsUnitary) :
    (is.mapM fun i => do inverse (← depth) i).Attains s fun _ _ => True := by
  -- Flips keep all gates nested, so that the next one can be inverted as well.
  refine (ends_mapM (I := fun _ _ t => t.Sound lib lost loose ∧ s.Grows loose t ∧ ∃ m, s.Flips lib m t)
    (fun done i rest _ t hsplit ht => ?_) ⟨hs, .refl s, _, .refl lib s⟩).map fun _ _ _ => trivial
  obtain ⟨ht, hst, m, hflips⟩ := ht
  obtain ⟨hknown, hnested, hunitary⟩ := his i (hsplit ▸ mem_append_right done mem_cons_self)
  obtain ⟨x, hx⟩ := hknown.exists_instruction
  have hnests : t.Nests IsUnitary t.instructions.size (t.element i) := by
    rw [hflips.element_eq hx]
    exact (hflips.nests (fun _ h => h.inverted) (nests_unitary hs.toOrderly hknown hnested hunitary)).mono hst.size_le
  refine ends_bind.mpr (ends_depth.mpr ((inverts_inverse hs.regular hlib _ t i ht (hknown.mono hst) hnests).map ?_))
  rintro _ u ⟨hu, htu, -, -, hflips', -⟩
  exact ⟨hu, hst.trans htu, _, hflips.trans hflips'⟩

theorem ends_inverseCircuit_of_complete (hlib : lib.HasInverses)
    (hnested : s.IsNested c) : (inverseCircuit c).Ends s (fun _ _ => True) fun _ t => t = s := by
  cases hx : s.circuit? c with
  | none => exact reads_circuit.ends_bind (fun _ => rfl) fun x hx' => by cases hx.symm.trans hx'
  | some x =>
    by_cases hunitary : ∀ i ∈ x.data, ∃ y, s.instruction? i = some y ∧ y.IsUnitary
    · refine (ends_inverseCircuit hs.regular hlib hs hx fun i hi => ?_).ends fun _ _ _ => trivial
      refine nests_unitary hs.toOrderly (hs.data c x hx i hi).known
        (fun j hij => hnested j (Within.of_reflTransGen (.data hx hi) hij)) fun y hy => ?_
      obtain ⟨z, hz, hz'⟩ := hunitary i hi
      cases hz.symm.trans hy
      exact hz'
    · exact ends_inverseCircuit_of_some hx (fun _ => rfl) fun hall => absurd hall hunitary

end

end Action

/-! ## Calls -/

namespace Call

open Store

/-- Where the checks of a modifier cover all that can go wrong. New controls must not meet a gate at two places; what
is conditioned or inverted must not contain itself; groups are not checked for barriers and measurements. Links of a
library are looked up while gates are inverted, so either all of them are in place or no gate is changed before the
last of them was looked up. -/
def IsCovered (libs : Set Library) (s : Store) : Call → Prop
  | .condition i _ _ => s.NestedBelow i
  | .conditionAll is _ _ => ∀ i ∈ is, s.NestedBelow i ∧ Action.isGate s i
  | .control i _ => (s.gatesBelow (s.instructions.size + 1) i).Nodup
  | .controlAll is _ => (is.flatMap (s.gatesBelow (s.instructions.size + 1))).Nodup ∧
      ∀ i ∈ is, Action.isGate s i ∧ ∀ x, s.instruction? i = some x → x.IsUnitary
  | .inverse i => (Library.AreComplete libs ∧ s.NestedBelow i) ∨ ∀ j, s.Contains i j → s.IsLeaf j
  | .inverseAll is =>
    (Library.AreComplete libs ∧ ∀ i ∈ is, s.NestedBelow i ∧ ∀ x, s.instruction? i = some x → x.IsUnitary) ∨
      ∀ i ∈ is, s.IsLeaf i
  | .inverseCircuit c => (Library.AreComplete libs ∧ s.IsNested c) ∨
      ∀ x, s.circuit? c = some x → ∀ i ∈ x.data, s.IsLeaf i
  | _ => False

variable {handed : List InstructionId}

theorem isMeasure_of_isUnitary {x : Instruction} (h : x.IsUnitary) : x.isMeasure = false := by
  unfold isMeasure
  split
  · next hop => exact absurd hop h
  · rfl

/-- A modifier that is covered by its checks fails before it changes anything. -/
theorem ends_run_of_isCovered (hs : s.Orderly libs lost ∅) (k : Call) (huses : ∀ i ∈ k.uses, s.Known lost i)
    (hcovered : k.IsCovered libs s) : (k.run lib).Ends s (fun _ _ => True) fun _ t => s.Unchanged t := by
  have hunchanged : ∀ {α : Type} {a : Action α}, a.Ends s (fun _ _ => True) (fun _ t => t = s) →
      a.Ends s (fun _ _ => True) fun _ t => s.Unchanged t := by
    refine fun ha => ha.imp (fun _ _ h => h) ?_
    rintro e t rfl
    exact .refl t
  have hthen : ∀ {α : Type} {a : Action α} {f : α → List InstructionId},
      a.Ends s (fun _ _ => True) (fun _ t => s.Unchanged t) →
      (a >>= fun v => pure (f v)).Ends s (fun _ _ => True) fun _ t => s.Unchanged t :=
    fun ha => Action.Ends.bind ha fun _ _ _ => Action.ends_pure.mpr trivial
  have hdepth : ∀ {f : Nat → Action (List InstructionId)},
      (f (s.instructions.size + 1)).Ends s (fun _ _ => True) (fun _ t => s.Unchanged t) →
      (Action.depth >>= f).Ends s (fun _ _ => True) fun _ t => s.Unchanged t :=
    fun hf => Action.ends_bind.mpr (Action.ends_depth.mpr hf)
  cases k with
  | condition i register value =>
    exact hdepth (hthen (hunchanged (Action.unchanged_condition hs (huses i mem_cons_self) hcovered)))
  | conditionAll is register value =>
    exact hthen (hunchanged (Action.unchanged_conditionAll hs fun i hi => ⟨huses i hi, hcovered i hi⟩))
  | control i registers =>
    exact hdepth (hthen (hunchanged (Action.unchanged_control hs (huses i mem_cons_self) hcovered)))
  | controlAll is registers =>
    refine hthen (hunchanged (Action.unchanged_controlAll hs (fun i hi => ?_) hcovered.1))
    obtain ⟨hgate, hunitary⟩ := hcovered.2 i hi
    exact ⟨huses i hi, hgate, fun x hx => isMeasure_of_isUnitary (hunitary x hx)⟩
  | inverse i =>
    refine hdepth (hthen ?_)
    rcases hcovered with ⟨⟨only, rfl, hregular, hinverses⟩, hnested⟩ | hleaves
    · exact hunchanged (Action.ends_inverse_of_complete ⟨hs, hregular⟩ hinverses (huses i mem_cons_self) hnested)
    · exact Action.unchanged_inverse hs (huses i mem_cons_self) hleaves
  | inverseAll is =>
    rcases hcovered with ⟨⟨only, rfl, hregular, hinverses⟩, hnested⟩ | hleaves
    · refine (Action.ends_inverseAll_of_complete ⟨hs, hregular⟩ hinverses fun i hi => ?_).ends fun _ _ h => h
      exact ⟨huses i hi, hnested i hi⟩
    · exact Action.unchanged_inverseAll fun i hi => ⟨huses i hi, hleaves i hi⟩
  | inverseCircuit c =>
    refine hthen ?_
    rcases hcovered with ⟨⟨only, rfl, hregular, hinverses⟩, hnested⟩ | hleaves
    · exact hunchanged (Action.ends_inverseCircuit_of_complete ⟨hs, hregular⟩ hinverses hnested)
    · exact Action.unchanged_inverseCircuit hs hleaves
  | _ => exact hcovered.elim

/-- Where its checks cover all that can go wrong, a modifier that fails changes no instruction and no circuit: with any
libraries, and however instructions are shared. -/
theorem unchanged_of_fails (hs : s.Arises libs handed) (k : Call) (huses : ∀ i ∈ k.uses, s.InReach handed i)
    (hcovered : k.IsCovered libs s) (hfails : ((k.run lib).outcome s).1.toOption = none) :
    s.Unchanged ((k.run lib).outcome s).2 := by
  obtain ⟨lost, horderly, hknown⟩ := hs.exists_orderly
  have hends := @ends_run_of_isCovered s lost libs lib horderly k (fun i hi => hknown i (huses i hi)) hcovered
  unfold Action.Ends at hends
  rcases hrun : (k.run lib).outcome s with ⟨result, t⟩
  rw [hrun] at hends hfails
  cases result with
  | ok v => cases hfails
  | error e => exact hends

/-- A library whose only gate has no inverse there, and no form with a control. -/
def danglingLibrary : Library := ⟨[⟨"s", [], 1, "sdg", [], some "cs"⟩]⟩

/-- A gate of the library, inside two others. -/
def nestedCalls : List Call :=
  [.newCircuit none [.register Bit.single.register, .register .lead],
    .newComposite 0 (.datum (.text "g")) [.bit .single] (.ok []), .applyGate (.gate 0) "s" [.bit .single] (.ok []),
    .newComposite 0 (.datum (.text "f")) [.bit .single] (.ok []), .attach (.gate 2) 0,
    .callHelper (.gate 2) "barrier" [.bit .single], .attach (.circuit 0) 2]

/-- The link of the innermost gate is looked up before the outer ones are changed. -/
theorem unchanged_of_fails_dangling :
    let p := nestedCalls.foldl (Store.next danglingLibrary) ({}, [])
    let k := Call.control 2 [.register .lead]
    p.1.Arises {danglingLibrary} p.2 ∧ ((k.run danglingLibrary).outcome p.1).1.toOption = none ∧
      p.1.Unchanged ((k.run danglingLibrary).outcome p.1).2 := by
  have hs := (Store.reachable_foldl danglingLibrary nestedCalls (by decide +kernel)).arises
  have hfails : (((Call.control 2 [.register .lead]).run danglingLibrary).outcome
    (nestedCalls.foldl (Store.next danglingLibrary) ({}, [])).1).1.toOption = none := by decide +kernel
  refine ⟨hs, hfails, unchanged_of_fails hs _ (fun i hi => .handed ?_) ?_ hfails⟩
  · rw [List.mem_singleton.mp hi]
    decide +kernel
  · unfold IsCovered
    decide +kernel

/-- A gate of the library that stands twice in another one. -/
def repeatedCalls : List Call :=
  [.newCircuit none [.register Bit.single.register, .register .lead],
    .newComposite 0 (.datum (.text "g")) [.bit .single] (.ok []), .applyGate (.gate 0) "x" [.bit .single] (.ok []),
    .attach (.gate 0) 1]

/-- All checks pass, since the gate has no control yet. At its second place it has one, and controlling fails. -/
theorem changed_of_fails_repeated :
    let p := repeatedCalls.foldl (Store.next .packaged) ({}, [])
    let k := Call.control 0 [.register .lead]
    p.1.Arises {.packaged} p.2 ∧ (∀ i ∈ k.uses, p.1.InReach p.2 i) ∧
      ((k.run .packaged).outcome p.1).1.toOption = none ∧ ¬ p.1.Unchanged ((k.run .packaged).outcome p.1).2 := by
  refine ⟨(Store.reachable_foldl .packaged repeatedCalls (by decide +kernel)).arises, fun i hi => .handed ?_,
    by decide +kernel, fun hunchanged => ?_⟩
  · rw [List.mem_singleton.mp hi]
    decide +kernel
  · obtain ⟨x, hx⟩ := Option.isSome_iff_exists.mp (by decide +kernel :
      ((repeatedCalls.foldl (Store.next .packaged) ({}, [])).1.instruction? 1).isSome = true)
    have hcontrols := congrArg (Option.map Instruction.controls) ((hunchanged.instructions 1 x hx).trans hx.symm)
    exact absurd hcontrols (by decide +kernel)

end Call

end QasmCircuit
