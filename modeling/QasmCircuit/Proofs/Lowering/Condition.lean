import QasmCircuit.Proofs.Lowering.Attach

/-!
# What a condition changes

A gate with a body is put under a condition together with all that is inside it, barriers apart. So exactly the
instructions below it change (`Store.Guarded`), and flattened it is what it was, with the condition on every
instruction (`Store.Placed.guarded`).
-/

namespace QasmCircuit

open Relation List

variable {s t : Store} {K L : Set InstructionId} {i : InstructionId} {n m : Nat} {xs : List Instruction}
  {is body : List InstructionId} {y : Instruction}

/-- An instruction under a condition. Barriers have none. -/
def Instruction.guarded (g : Condition) (x : Instruction) : Instruction :=
  if x.isBarrier then x else { x with condition := some g }

namespace Instruction

variable (g : Condition) (x : Instruction)

theorem guarded_of_not {x : Instruction} (h : x.isBarrier = false) : x.guarded g = { x with condition := some g } := by
  rw [guarded, h]
  rfl

theorem guarded_operation : (x.guarded g).operation = x.operation := by
  unfold guarded
  split <;> rfl

theorem guarded_circuit : (x.guarded g).circuit = x.circuit := by
  unfold guarded
  split <;> rfl

theorem guarded_guarded : (x.guarded g).guarded g = x.guarded g := by
  cases h : x.isBarrier with
  | true => simp only [guarded, h, if_true]
  | false =>
    rw [guarded_of_not g h]
    exact guarded_of_not g h

theorem inside_of_isBarrier {x : Instruction} (h : x.isBarrier) : x.inside = [] := by
  unfold isBarrier at h
  unfold inside
  split at h
  · next hop => rw [hop]
  · cases h

end Instruction

namespace Store

variable {u : Store} {g : Condition} {j : InstructionId} {x : Instruction} {P : Instruction → Prop}

/-- Some instructions of a store are changed, but for their operations and circuits, and nothing else is. -/
structure Changed (f : Instruction → Instruction) (K : Set InstructionId) (s t : Store) : Prop where
  keeps : ∀ x, (f x).operation = x.operation ∧ (f x).circuit = x.circuit
  circuits : t.circuits = s.circuits
  size : t.instructions.size = s.instructions.size
  inside : ∀ i ∈ K, ∀ x, s.instruction? i = some x → t.instruction? i = some (f x)
  outside : ∀ i ∉ K, t.instruction? i = s.instruction? i

/-- Some instructions of a store are put under a condition, and nothing else is changed. -/
abbrev Guarded (g : Condition) : Set InstructionId → Store → Store → Prop := Changed (Instruction.guarded g)

namespace Guarded

theorem refl (g : Condition) (s : Store) : s.Guarded g ∅ s :=
  ⟨fun x => ⟨x.guarded_operation g, x.guarded_circuit g⟩, rfl, rfl, fun _ hi => absurd hi (Set.notMem_empty _),
    fun _ _ => rfl⟩

/-- A condition that is there already changes nothing. -/
theorem trans (h : s.Guarded g K t) (h' : t.Guarded g L u) : s.Guarded g (K ∪ L) u where
  keeps := h.keeps
  circuits := h'.circuits.trans h.circuits
  size := h'.size.trans h.size
  inside i hi x hx := by
    by_cases hK : i ∈ K
    · have ht := h.inside i hK x hx
      by_cases hL : i ∈ L
      · rw [h'.inside i hL _ ht, Instruction.guarded_guarded]
      · rw [h'.outside i hL, ht]
    · have hL := hi.resolve_left hK
      exact h'.inside i hL x ((h.outside i hK).trans hx)
  outside i hi := by
    rw [Set.mem_union, not_or] at hi
    rw [h'.outside i hi.2, h.outside i hi.1]

/-- Barriers may be counted among what is put under a condition. -/
theorem widen (h : s.Guarded g K t) (hKL : K ⊆ L)
    (hbarrier : ∀ i ∈ L, i ∉ K → ∀ x, s.instruction? i = some x → x.isBarrier) : s.Guarded g L t where
  keeps := h.keeps
  circuits := h.circuits
  size := h.size
  inside i hi x hx := by
    by_cases hK : i ∈ K
    · exact h.inside i hK x hx
    · rw [h.outside i hK, hx, Instruction.guarded, if_pos (hbarrier i hi hK x hx)]
  outside i hi := h.outside i fun hK => hi (hKL hK)

end Guarded

namespace Changed

variable {f : Instruction → Instruction}

section

variable (h : s.Changed f K t)

include h

theorem exists_of_some (hx : s.instruction? i = some x) :
    ∃ y, t.instruction? i = some y ∧ y.operation = x.operation ∧ y.circuit = x.circuit := by
  by_cases hi : i ∈ K
  · exact ⟨_, h.inside i hi x hx, h.keeps x⟩
  · exact ⟨x, (h.outside i hi).trans hx, rfl, rfl⟩

theorem instruction?_eq_none (hi : s.instruction? i = none) : t.instruction? i = none := by
  unfold instruction? at hi ⊢
  rw [Array.getElem?_eq_none_iff] at hi ⊢
  rw [h.size]
  exact hi

theorem contains_iff : t.Contains i j ↔ s.Contains i j := by
  cases hx : s.instruction? i with
  | none =>
    have ht := h.instruction?_eq_none hx
    constructor
    · rintro ⟨y, hy, -⟩
      cases ht.symm.trans hy
    · rintro ⟨y, hy, -⟩
      cases hx.symm.trans hy
  | some x =>
    obtain ⟨y, hy, hop, -⟩ := h.exists_of_some hx
    have hinside : y.inside = x.inside := by rw [Instruction.inside, Instruction.inside, hop]
    constructor
    · rintro ⟨z, hz, hj⟩
      cases hy.symm.trans hz
      exact ⟨x, hx, hinside ▸ hj⟩
    · rintro ⟨z, hz, hj⟩
      cases hx.symm.trans hz
      exact ⟨y, hy, hinside.symm ▸ hj⟩

theorem reach_iff : ReflTransGen t.Contains i j ↔ ReflTransGen s.Contains i j := by
  have hcontains : t.Contains = s.Contains := funext fun _ => funext fun _ => propext h.contains_iff
  rw [hcontains]

/-- A gate with a body stays one, with the same members. -/
theorem composite {name : String} {inverted : Bool}
    (hx : s.instruction? i = some x) (hop : x.operation = .composite name body inverted) :
    ∃ y, t.instruction? i = some y ∧ y.operation = .composite name body inverted := by
  obtain ⟨y, hy, hyx, -⟩ := h.exists_of_some hx
  exact ⟨y, hy, hyx.trans hop⟩

theorem leaf (hx : s.instruction? i = some x) (hleaf : x.isComposite = false) :
    ∃ y, t.instruction? i = some y ∧ y.isComposite = false := by
  obtain ⟨y, hy, hyx, -⟩ := h.exists_of_some hx
  exact ⟨y, hy, by rw [Instruction.isComposite, hyx]; exact hleaf⟩

theorem gatesAt_eq : t.gatesAt n (t.element i) = s.gatesAt n (s.element i) := by
  induction n generalizing i with
  | zero =>
    have hzero : ∀ (r : Store) (e : Element), r.gatesAt 0 e = [] := fun r e => by cases e <;> rfl
    rw [hzero, hzero]
  | succ n ih =>
    cases hx : s.instruction? i with
    | none =>
      have ht := h.instruction?_eq_none hx
      rw [element, element, hx, ht]
      dsimp only
      rw [gatesAt, gatesAt, face, face, hx, ht]
    | some x =>
      cases hleaf : x.isComposite with
      | false =>
        obtain ⟨y, hy, hyleaf⟩ := h.leaf hx hleaf
        rw [element_of_leaf hy hyleaf, element_of_leaf hx hleaf, gatesAt_leaf, gatesAt_leaf]
      | true =>
        obtain ⟨name, body, inverted, hop⟩ := isComposite_iff.mp hleaf
        obtain ⟨y, hy, hyop⟩ := h.composite hx hop
        rw [element_of_composite hy hyop, element_of_composite hx hop, gatesAt_gate (face_of_composite hy hyop),
          gatesAt_gate (face_of_composite hx hop)]
        dsimp only
        rw [flatMap_map, flatMap_map]
        exact congrArg _ (flatMap_congr fun j _ => ih)

end

end Changed

namespace Guarded

theorem expandAll_eq (hK : ∀ i ∈ is, ∀ j, ReflTransGen s.Contains i j → j ∈ K)
    (h : ∀ {i : InstructionId} {xs : List Instruction}, (∀ j, ReflTransGen s.Contains i j → j ∈ K) →
      s.expand n (s.element i) = some xs → t.expand n (t.element i) = some (xs.map (Instruction.guarded g)))
    (hxs : s.expandAll n (is.map s.element) = some xs) :
    t.expandAll n (is.map t.element) = some (xs.map (Instruction.guarded g)) := by
  obtain ⟨parts, hparts, rfl⟩ := expandAll_eq_some.mp hxs
  refine expandAll_eq_some.mpr ⟨parts.map (List.map (Instruction.guarded g)), ?_, map_flatten.symm⟩
  rw [forall₂_map_left_iff] at hparts
  rw [forall₂_map_left_iff, forall₂_map_right_iff]
  exact Outcome.forall₂_imp_of_mem hparts fun i hi _ hpart => h (hK i hi) hpart

/-- Flattened, everything below a place is under the condition. -/
theorem expand_eq (h : s.Guarded g K t) (hK : ∀ j, ReflTransGen s.Contains i j → j ∈ K)
    (hxs : s.expand n (s.element i) = some xs) : t.expand n (t.element i) = some (xs.map (Instruction.guarded g)) := by
  induction n generalizing i xs with
  | zero =>
    cases hx : s.instruction? i with
    | none =>
      rw [element, hx] at hxs
      cases hxs
    | some x =>
      rcases element_cases hx with ⟨F, -, helement⟩ | ⟨hleaf, helement⟩
      · rw [helement] at hxs
        cases hxs
      · have ht := h.inside i (hK i .refl) x hx
        have hleaf' : (x.guarded g).isComposite = false := by
          rw [Instruction.isComposite, x.guarded_operation]
          exact hleaf
        rw [helement] at hxs
        cases hxs
        rw [element_of_leaf ht hleaf']
        rfl
  | succ n ih =>
    cases hx : s.instruction? i with
    | none =>
      rw [element, hx, expand, face, hx] at hxs
      cases hxs
    | some x =>
      cases hleaf : x.isComposite with
      | false =>
        have ht := h.inside i (hK i .refl) x hx
        have hleaf' : (x.guarded g).isComposite = false := by
          rw [Instruction.isComposite, x.guarded_operation]
          exact hleaf
        rw [element_of_leaf hx hleaf] at hxs
        cases hxs
        rw [element_of_leaf ht hleaf']
        rfl
      | true =>
        obtain ⟨name, body, inverted, hop⟩ := isComposite_iff.mp hleaf
        obtain ⟨y, hy, hyop⟩ := h.composite hx hop
        rw [element_of_composite hx hop, expand_gate (face_of_composite hx hop)] at hxs
        rw [element_of_composite hy hyop, expand_gate (face_of_composite hy hyop)]
        refine expandAll_eq (fun j hj k hjk => hK k (.head ⟨x, hx, ?_⟩ hjk)) ih hxs
        rw [Instruction.inside, hop]
        exact hj

end Guarded

/-- What stands below some places. -/
def Below (s : Store) (is : List InstructionId) : Set InstructionId :=
  { j | ∃ i ∈ is, ReflTransGen s.Contains i j }

/-- What is new and is put under a condition stays in place. -/
theorem Placed.guarded (h : Placed P m t is xs) (hg : t.Guarded g (t.Below is) u)
    (hP : ∀ x, P x → P (x.guarded g)) : Placed P m u is (xs.map (Instruction.guarded g)) := by
  have hbelow : ∀ i ∈ is, ∀ j, ReflTransGen t.Contains i j → j ∈ t.Below is := fun i hi j hij => ⟨i, hi, hij⟩
  refine ⟨⟨⟨?_, ?_, fun i hi j hj => ?_⟩, fun i hi j hij => ?_⟩, fun i hi j hij => ?_⟩
  · rw [hg.size]
    exact Guarded.expandAll_eq hbelow (fun hK => hg.expand_eq hK) h.expand
  · rw [hg.size, flatMap_congr fun i _ => hg.gatesAt_eq]
    exact h.once
  · rw [hg.size, hg.gatesAt_eq] at hj
    exact h.gates i hi j hj
  · exact h.new i hi j (hg.reach_iff.mp hij)
  · have hij' := hg.reach_iff.mp hij
    obtain ⟨x, hx, hx'⟩ := h.below i hi j hij'
    exact ⟨_, hg.inside j ⟨i, hi, hij'⟩ x hx, hP x hx'⟩

theorem changed_put {f : Instruction → Instruction}
    (hf : ∀ x, (f x).operation = x.operation ∧ (f x).circuit = x.circuit) (hy : t.instruction? i = some y) :
    t.Changed f {i} (t.put i (f y)) where
  keeps := hf
  circuits := rfl
  size := by rw [put, Array.size_setIfInBounds]
  inside j hj x hx := by
    obtain rfl : j = i := hj
    cases hy.symm.trans hx
    exact instruction?_put _ _ _ (instruction?_lt hy)
  outside j hj := instruction?_put_ne _ _ _ _ fun h => hj h.symm

theorem guarded_put (hy : t.instruction? i = some y) (hbarrier : y.isBarrier = false) (g : Condition) :
    t.Guarded g {i} (t.put i { y with condition := some g }) :=
  Instruction.guarded_of_not g hbarrier ▸ changed_put (fun x => ⟨x.guarded_operation g, x.guarded_circuit g⟩) hy

end Store

namespace Action

open Store

variable {g : Condition} {home : CircuitId} {c : Circuit} {x : Instruction} {P : Instruction → Prop}

theorem returns_checkCondition (hc : s.circuit? home = some c)
    (hcheck : c.checkCondition (.register g.1) (.datum (.int g.2)) = .ok g) (hx : x.circuit = home) :
    (checkCondition x (.register g.1) (.datum (.int g.2))).Returns s g s := by
  subst hx
  refine (returns_circuit hc).bind ?_
  rw [asModifier_eq_ok.mpr hcheck]
  rfl

theorem returns_gatesOf (h : ∀ j ∈ body, ∃ y, s.instruction? j = some y) :
    (gatesOf body).Returns s (body.filter (isGate s)) s := by
  refine returns_filterM fun j hj => ?_
  obtain ⟨y, hy⟩ := h j hj
  refine (returns_instruction hy).bind ?_
  rw [isGate, hy, Option.any_some]
  rfl

theorem isGate_of_guarded (h : s.Guarded g K t) : isGate t = isGate s := by
  funext i
  cases hx : s.instruction? i with
  | none => rw [isGate, isGate, hx, h.instruction?_eq_none hx]
  | some x =>
    obtain ⟨y, hy, hop, -⟩ := h.exists_of_some hx
    rw [isGate, isGate, hx, hy, Option.any_some, Option.any_some, Instruction.isBarrier, Instruction.isBarrier, hop]

/-- An instruction gets a condition of its own. -/
theorem ends_putCondition (hst : s.Guarded g K t) (hx : s.instruction? i = some x) (hbarrier : x.isBarrier = false)
    (hL : ∀ j ∈ L, j ∈ K ∨ j = i ∨ ∀ y, s.instruction? j = some y → y.isBarrier)
    (hKL : K ⊆ L) (hi : i ∈ L) (hy : t.instruction? i = some y) :
    (put i { y with condition := some g }).Attains t fun _ u => s.Guarded g L u := by
  obtain ⟨z, hz, hop, -⟩ := hst.exists_of_some hx
  cases hy.symm.trans hz
  have hbarrier' : y.isBarrier = false := by
    rw [Instruction.isBarrier, hop]
    exact hbarrier
  refine ends_modify.mpr ((hst.trans (guarded_put hy hbarrier' g)).widen ?_ ?_)
  · rintro j (hj | rfl)
    · exact hKL hj
    · exact hi
  · intro j hj hnot w hw
    rw [Set.mem_union, not_or] at hnot
    rcases hL j hj with h | rfl | h
    · exact absurd h hnot.1
    · exact absurd rfl hnot.2
    · exact h w hw

theorem circuit?_of_guarded (hst : s.Guarded g K t) (hc : s.circuit? home = some c) : t.circuit? home = some c := by
  rw [circuit?, hst.circuits]
  exact hc

/-- Everything below some instructions is put under a condition, one after the other. -/
theorem ends_condition_forM {js : List InstructionId}
    (hjs : ∀ j ∈ js, ∀ (K : Set InstructionId) (t : Store), s.Guarded g K t →
      (condition n j (.register g.1) (.datum (.int g.2))).Attains t
        (fun _ u => s.Guarded g (K ∪ { l | ReflTransGen s.Contains j l }) u))
    (hst : s.Guarded g K t) : (js.forM fun j => condition n j (.register g.1) (.datum (.int g.2))).Attains t
      fun _ u => s.Guarded g (K ∪ s.Below js) u := by
  induction js generalizing K t with
  | nil =>
    refine hst.widen Set.subset_union_left fun j hj hnot => ?_
    obtain ⟨k, hk, -⟩ := hj.resolve_left hnot
    exact absurd hk not_mem_nil
  | cons j js ih =>
    rw [forall_mem_cons] at hjs
    refine (hjs.1 K t hst).bind fun _ u hu => (ih hjs.2 hu).map fun _ v hv => ?_
    refine hv.widen ?_ ?_
    · rintro k ((hk | hk) | ⟨l, hl, hlk⟩)
      · exact .inl hk
      · exact .inr ⟨j, mem_cons_self, hk⟩
      · exact .inr ⟨l, mem_cons_of_mem j hl, hlk⟩
    · rintro k (hk | ⟨l, hl, hlk⟩) hnot
      · exact absurd (.inl (.inl hk)) hnot
      · rcases mem_cons.mp hl with rfl | hl
        · exact absurd (.inl (.inr hlk)) hnot
        · exact absurd (.inr ⟨l, hl, hlk⟩) hnot

section

variable (hc : s.circuit? home = some c) (hcheck : c.checkCondition (.register g.1) (.datum (.int g.2)) = .ok g)
  (hx : s.instruction? i = some x) (hbarrier : x.isBarrier = false)
include hc hcheck hx hbarrier

theorem ends_condition_leaf (hleaf : x.isComposite = false) (hhome : x.circuit = home) (hst : s.Guarded g K t)
    (n : Nat) :
    (condition (n + 1) i (.register g.1) (.datum (.int g.2))).Attains t
      fun _ u => s.Guarded g (K ∪ { j | ReflTransGen s.Contains i j }) u := by
  obtain ⟨y, hy, hop, hcircuit⟩ := hst.exists_of_some hx
  have hchecked := returns_checkCondition (circuit?_of_guarded hst hc) hcheck (hcircuit.trans hhome)
  have hput : (checkCondition y (.register g.1) (.datum (.int g.2)) >>= fun new =>
      put i { y with condition := some new }).Attains t
        fun _ u => s.Guarded g (K ∪ { j | ReflTransGen s.Contains i j }) u := by
    refine hchecked.ends_bind.mpr (ends_putCondition hst hx hbarrier (fun j hj => ?_) Set.subset_union_left
      (.inr .refl) hy)
    rcases hj with hj | hj
    · exact .inl hj
    · rcases ReflTransGen.cases_head hj with rfl | ⟨k, ⟨z, hz, hk⟩, -⟩
      · exact .inr (.inl rfl)
      · cases hx.symm.trans hz
        rw [inside_of_leaf hleaf] at hk
        exact absurd hk not_mem_nil
  rw [condition]
  refine (returns_instruction hy).ends_bind.mpr ?_
  split
  · next hyop =>
    rw [Instruction.isBarrier, ← hop, hyop] at hbarrier
    cases hbarrier
  · exact hput
  · exact hput
  · next hyop =>
    rw [Instruction.isComposite, ← hop, hyop] at hleaf
    cases hleaf

/-- A condition goes to everything below an instruction, whatever has the condition already. -/
theorem ends_condition
    (hbelow : ∀ j, ReflTransGen s.Contains i j → ∃ y, s.instruction? j = some y ∧ y.circuit = home)
    (hnests : s.Nests (fun _ => True) n (s.element i)) (hst : s.Guarded g K t) :
    (condition (n + 1) i (.register g.1) (.datum (.int g.2))).Attains t
      fun _ u => s.Guarded g (K ∪ { j | ReflTransGen s.Contains i j }) u := by
  induction n generalizing i x t K with
  | zero =>
    obtain ⟨x', hx', hhome⟩ := hbelow i .refl
    cases hx.symm.trans hx'
    rcases element_cases hx with ⟨F, -, helement⟩ | ⟨hleaf, -⟩
    · rw [helement] at hnests
      exact hnests.elim
    · exact ends_condition_leaf hc hcheck hx hbarrier hleaf hhome hst 0
  | succ n ih =>
    obtain ⟨x', hx', hhome⟩ := hbelow i .refl
    cases hx.symm.trans hx'
    cases hcomposite : x.isComposite with
    | false => exact ends_condition_leaf hc hcheck hx hbarrier hcomposite hhome hst (n + 1)
    | true =>
      obtain ⟨name, body, inverted, hop⟩ := isComposite_iff.mp hcomposite
      obtain ⟨y, hy, hyop, hcircuit⟩ := hst.exists_of_some hx
      have hct := circuit?_of_guarded hst hc
      have hchecked := returns_checkCondition hct hcheck (hcircuit.trans hhome)
      rw [element_of_composite hx hop] at hnests
      obtain ⟨F, hF, hall⟩ := hnests
      cases (face_of_composite hx hop).symm.trans hF
      have hcontains : ∀ j ∈ body, s.Contains i j := by
        intro j hj
        refine ⟨x, hx, ?_⟩
        rw [Instruction.inside, hop]
        exact hj
      have hmembers : ∀ j ∈ body, ∃ z, t.instruction? j = some z ∧ z.circuit = home := by
        intro j hj
        obtain ⟨z, hz, hzhome⟩ := hbelow j (.single (hcontains j hj))
        obtain ⟨w, hw, -, hwz⟩ := hst.exists_of_some hz
        exact ⟨w, hw, hwz.trans hzhome⟩
      have hgates : (gatesOf body).Returns t (body.filter (isGate s)) t := by
        rw [← isGate_of_guarded hst]
        exact returns_gatesOf fun j hj => (hmembers j hj).imp fun _ h => h.1
      have hchecks : ((body.filter (isGate s)).forM fun j => do
          let _ ← checkCondition (← instruction j) (.register g.1) (.datum (.int g.2))).Returns t () t := by
        refine returns_forM fun j hj => ?_
        obtain ⟨z, hz, hzhome⟩ := hmembers j (mem_of_mem_filter hj)
        exact (returns_instruction hz).bind ((returns_checkCondition hct hcheck hzhome).bind rfl)
      have hloop := ends_condition_forM (fun j (hj : j ∈ body.filter (isGate s)) K t hst => by
        obtain ⟨hmem, hgate⟩ := mem_filter.mp hj
        obtain ⟨z, hz, -⟩ := hbelow j (.single (hcontains j hmem))
        rw [isGate, hz, Option.any_some, Bool.not_eq_true'] at hgate
        exact ih hz hgate (fun k hjk => hbelow k (.head (hcontains j hmem) hjk)) (hall _ (mem_map_of_mem hmem)) hst) hst
      rw [condition]
      refine (returns_instruction hy).ends_bind.mpr ?_
      rw [hyop, hop]
      refine hchecked.ends_bind.mpr (hgates.ends_bind.mpr (hchecks.ends_bind.mpr (hloop.bind fun _ u hu => ?_)))
      obtain ⟨w, hw, -, -⟩ := hu.exists_of_some hx
      refine (returns_instruction hw).ends_bind.mpr (ends_putCondition hu hx hbarrier (fun j hj => ?_) ?_
        (.inr .refl) hw)
      · rcases hj with hj | hj
        · exact .inl (.inl hj)
        rcases ReflTransGen.cases_head hj with rfl | ⟨k, ⟨z, hz, hk⟩, hkj⟩
        · exact .inr (.inl rfl)
        cases hx.symm.trans hz
        rw [Instruction.inside, hop] at hk
        obtain ⟨v, hv, -⟩ := hbelow k (.single (hcontains k hk))
        cases hvbarrier : v.isBarrier with
        | false =>
          refine .inl (.inr ⟨k, mem_filter.mpr ⟨hk, ?_⟩, hkj⟩)
          rw [isGate, hv, Option.any_some, hvbarrier]
          rfl
        | true =>
          -- A barrier has no members, so nothing else stands below it.
          rcases ReflTransGen.cases_head hkj with rfl | ⟨l, ⟨v', hv', hl⟩, -⟩
          · refine .inr (.inr fun v' hv' => ?_)
            cases hv.symm.trans hv'
            exact hvbarrier
          · cases hv.symm.trans hv'
            rw [Instruction.inside_of_isBarrier hvbarrier] at hl
            exact absurd hl not_mem_nil
      · rintro k (hk | ⟨l, hl, hlk⟩)
        · exact .inl hk
        · exact .inr (.head (hcontains l (mem_of_mem_filter hl)) hlk)

end

/-- The result of an application is put under a condition. -/
theorem ends_conditionApplied {k : Container} {v : Applied}
    (hP : ∀ x, P x → x.circuit = home ∧ P (x.guarded g)) (hc : t.circuit? home = some c)
    (hcheck : c.checkCondition (.register g.1) (.datum (.int g.2)) = .ok g) (hfilled : Filled k v.ids s t)
    (hplaced : Placed P s.instructions.size t v.ids xs)
    (hgates : ∀ i ∈ v.ids, ∀ x, t.instruction? i = some x → x.isBarrier = false) :
    (conditionApplied v g.1 g.2).Attains t fun _ u => Builds P k (xs.map (Instruction.guarded g)) s u := by
  have hbelow : ∀ i ∈ v.ids, ∀ j, ReflTransGen t.Contains i j → ∃ y, t.instruction? j = some y ∧ y.circuit = home := by
    intro i hi j hij
    obtain ⟨y, hy, hy'⟩ := hplaced.below i hi j hij
    exact ⟨y, hy, (hP y hy').1⟩
  have hone : ∀ i ∈ v.ids, ∀ (K : Set InstructionId) (u : Store), t.Guarded g K u →
      (condition (t.instructions.size + 1) i (.register g.1) (.datum (.int g.2))).Attains u
        fun _ w => t.Guarded g (K ∪ { l | ReflTransGen t.Contains i l }) w := by
    intro i hi K u hu
    obtain ⟨x, hx, -⟩ := hbelow i hi i .refl
    obtain ⟨part, hpart, -⟩ := forall_of_expandAll (P := fun _ => True) hplaced.expand (fun _ _ => trivial) _
      (mem_map_of_mem hi)
    have hnests := (nests_of_expand (P := fun _ => True) hpart fun _ _ => trivial).mono (Nat.sub_le _ _)
    exact ends_condition hc hcheck hx (hgates i hi x hx) (hbelow i hi) hnests hu
  have hall : (v.ids.forM fun i => condition (t.instructions.size + 1) i (.register g.1) (.datum (.int g.2))).Attains t
      fun _ u => Builds P k (xs.map (Instruction.guarded g)) s u := by
    refine (ends_condition_forM hone (.refl g t)).map fun _ u hu => ?_
    rw [Set.empty_union] at hu
    refine ⟨v.ids, hfilled.congr hu.size.ge (fun i hi => hu.outside i ?_) ?_,
      hplaced.guarded hu fun x hx => (hP x hx).2⟩
    · rintro ⟨j, hj, hji⟩
      exact Nat.lt_irrefl i (Nat.lt_of_lt_of_le hi (hplaced.new j hj i hji))
    · intro d e he
      exact circuit?_of_guarded hu he
  cases v with
  | single i =>
    refine ends_bind.mpr (ends_depth.mpr ?_)
    refine (ends_bind.mp hall).map fun _ u hu => hu
  | group is =>
    have hchecks : (checkConditionOnAll is (.register g.1) (.datum (.int g.2))).Returns t () t := by
      refine returns_forM fun i hi => ?_
      obtain ⟨y, hy, hyhome⟩ := hbelow i hi i .refl
      exact (returns_instruction hy).bind ((returns_checkCondition hc hcheck hyhome).bind rfl)
    exact hchecks.ends_bind.mpr (ends_bind.mpr (ends_depth.mpr hall))

theorem isBarrier_of_placed (h : Placed P m t is xs) (hxs : ∀ x ∈ xs, x.isBarrier = false) :
    ∀ i ∈ is, ∀ x, t.instruction? i = some x → x.isBarrier = false := by
  intro i hi x hx
  obtain ⟨part, hpart, hall⟩ := forall_of_expandAll h.expand hxs _ (mem_map_of_mem hi)
  cases hbarrier : x.isBarrier with
  | false => rfl
  | true =>
    have hleaf : x.isComposite = false := by
      unfold Instruction.isBarrier at hbarrier
      split at hbarrier
      · next hop => rw [Instruction.isComposite, hop]
      · cases hbarrier
    rw [element_of_leaf hx hleaf, expand_leaf] at hpart
    cases hpart
    rw [hall x (mem_singleton_self x)] at hbarrier
    cases hbarrier

end Action

end QasmCircuit
