import Mathlib.Data.Finset.Card
import Mathlib.Logic.Relation
import QasmCircuit.Proofs.Circuit.Sound

/-!
# Circuits as graphs

Gates with a body are shared and are changed in place, so that a circuit is a graph: its nodes are the gates, and
the other instructions are what stands at the ends. An `Element` is what stands at one place, and a `Face` is a gate
as it looks from outside. A circuit in which no gate contains itself can be flattened (`Store.flattened`).

> `Store.nests_of_isNested`: gates that do not contain themselves are nested to at most as many levels as there are
> instructions.
> `Store.expand_of_nests`: what is nested can be flattened.
-/

namespace QasmCircuit

open Outcome Relation

variable {name : String} {body : List InstructionId} {inverted : Bool}

def Instruction.isComposite (x : Instruction) : Bool :=
  match x.operation with
  | .composite _ _ _ => true
  | _ => false

/-- An instruction without a body is no composite one. -/
theorem absurd_leaf {C : Prop} {x : Instruction} (hleaf : x.isComposite = false)
    (hop : x.operation = .composite name body inverted) : C := by
  rw [Instruction.isComposite, hop] at hleaf
  cases hleaf

/-- What stands at a place of a circuit or of a body: a gate with a body, which is known by its number, or an
instruction without one, which is known by what it is. -/
inductive Element where
  | gate (i : InstructionId)
  | leaf (x : Instruction)

/-- A gate with a body as it looks from outside: its own data without the body, and what stands in the body. -/
structure Face where
  head : Instruction
  elements : List Element

namespace Store

variable {s : Store} {i j : InstructionId} {x : Instruction} {F : Face} {c : CircuitId} {es : List Element}
  {xs : List Instruction}

/-- What an instruction is at the places where it stands. -/
def element (s : Store) (i : InstructionId) : Element :=
  match s.instruction? i with
  | some x => if x.isComposite then .gate i else .leaf x
  | none => .gate i

/-- A gate with a body as it looks from outside. -/
def face (s : Store) (i : InstructionId) : Option Face :=
  match s.instruction? i with
  | some x => match x.operation with
    | .composite name body inverted =>
      some ⟨{ x with operation := .composite name [] inverted }, body.map s.element⟩
    | _ => none
  | none => none

section

variable (hx : s.instruction? i = some x)

include hx

theorem element_of_composite (hop : x.operation = .composite name body inverted) : s.element i = .gate i := by
  rw [element, hx]
  dsimp only
  rw [Instruction.isComposite, hop]
  rfl

theorem element_of_leaf (hleaf : x.isComposite = false) : s.element i = .leaf x := by
  rw [element, hx]
  dsimp only
  rw [hleaf]
  rfl

theorem face_of_composite (hop : x.operation = .composite name body inverted) :
    s.face i = some ⟨{ x with operation := .composite name [] inverted }, body.map s.element⟩ := by
  rw [face, hx]
  dsimp only
  rw [hop]

end

theorem isComposite_iff : x.isComposite ↔ ∃ name body inverted, x.operation = .composite name body inverted := by
  unfold Instruction.isComposite
  split
  · next name body inverted hop => exact ⟨fun _ => ⟨name, body, inverted, hop⟩, fun _ => rfl⟩
  · next hop =>
    refine ⟨fun h => absurd h Bool.false_ne_true, ?_⟩
    rintro ⟨name, body, inverted, h⟩
    exact absurd h (hop name body inverted)

/-- Gates that look alike from outside differ in their bodies only. -/
theorem eq_of_head {y : Instruction} {name' : String} {body' : List InstructionId} {inverted' : Bool}
    (hop : y.operation = .composite name' body' inverted') (h : { x with operation := .composite name [] inverted } =
      { y with operation := .composite name' [] inverted' }) :
    y = { x with operation := .composite name body' inverted } := by
  cases y
  cases hop
  cases h
  rfl

theorem inside_of_leaf (hleaf : x.isComposite = false) : x.inside = [] := by
  unfold Instruction.inside
  split
  · next hop => exact absurd_leaf hleaf hop
  · rfl

/-- A gate with a body has a face, and nothing else has. -/
theorem exists_of_face (h : s.face i = some F) : ∃ x name body inverted, s.instruction? i = some x ∧
    x.operation = .composite name body inverted ∧
    F = ⟨{ x with operation := .composite name [] inverted }, body.map s.element⟩ := by
  unfold face at h
  split at h
  · next x hx =>
    split at h
    · next name body inverted hop => exact ⟨x, name, body, inverted, hx, hop, (Option.some.inj h).symm⟩
    · cases h
  · cases h

theorem element_of_face (h : s.face i = some F) : s.element i = .gate i := by
  obtain ⟨x, name, body, inverted, hx, hop, -⟩ := exists_of_face h
  exact element_of_composite hx hop

/-- An instruction is a gate with a body or stands for itself. -/
theorem element_cases (hx : s.instruction? i = some x) :
    (∃ F, s.face i = some F ∧ s.element i = .gate i) ∨ (x.isComposite = false ∧ s.element i = .leaf x) := by
  cases hleaf : x.isComposite with
  | false => exact .inr ⟨rfl, element_of_leaf hx hleaf⟩
  | true =>
    obtain ⟨name, body, inverted, hop⟩ := isComposite_iff.mp hleaf
    exact .inl ⟨_, face_of_composite hx hop, element_of_composite hx hop⟩

/-! ## Nesting -/

/-- What stands at a place holds gates to at most a number of levels, and every instruction without a body
satisfies `P`. -/
def Nests (s : Store) (P : Instruction → Prop) : Nat → Element → Prop
  | _, .leaf x => P x
  | 0, .gate _ => False
  | n + 1, .gate i => ∃ F, s.face i = some F ∧ ∀ e ∈ F.elements, s.Nests P n e

/-- The gates with a body at all places below a place, to a number of levels. -/
def gatesAt (s : Store) : Nat → Element → List InstructionId
  | _, .leaf _ => []
  | 0, .gate _ => []
  | n + 1, .gate i =>
    match s.face i with
    | some F => i :: F.elements.flatMap (s.gatesAt n)
    | none => []

/-- The gates with a body at all places of a circuit, to a number of levels. -/
def placesAt (s : Store) (n : Nat) (c : CircuitId) : List InstructionId :=
  match s.circuit? c with
  | some x => x.data.flatMap fun i => s.gatesAt n (s.element i)
  | none => []

variable {P Q : Instruction → Prop} {n m : Nat} {e : Element}

theorem placesAt_of_some {x : Circuit} (hx : s.circuit? c = some x) :
    s.placesAt n c = x.data.flatMap fun i => s.gatesAt n (s.element i) := by
  rw [placesAt, hx]

theorem nests_leaf : s.Nests P n (.leaf x) ↔ P x := by
  cases n <;> exact Iff.rfl

theorem gatesAt_leaf (s : Store) (n : Nat) (x : Instruction) : s.gatesAt n (.leaf x) = [] := by
  cases n <;> rfl

theorem gatesAt_gate (h : s.face i = some F) : s.gatesAt (n + 1) (.gate i) = i :: F.elements.flatMap (s.gatesAt n) := by
  rw [gatesAt, h]

section

variable (h : s.Nests P n e)

include h

theorem Nests.imp (hPQ : ∀ x, P x → Q x) : s.Nests Q n e := by
  induction n generalizing e with
  | zero =>
    cases e with
    | leaf x => exact hPQ x h
    | gate i => exact h.elim
  | succ n ih =>
    cases e with
    | leaf x => exact hPQ x h
    | gate i =>
      obtain ⟨F, hF, hall⟩ := h
      exact ⟨F, hF, fun e he => ih (hall e he)⟩

theorem Nests.succ : s.Nests P (n + 1) e := by
  induction n generalizing e with
  | zero =>
    cases e with
    | leaf x => exact h
    | gate i => exact h.elim
  | succ n ih =>
    cases e with
    | leaf x => exact h
    | gate i =>
      obtain ⟨F, hF, hall⟩ := h
      exact ⟨F, hF, fun e he => ih (hall e he)⟩

theorem Nests.mono (hnm : n ≤ m) : s.Nests P m e := by
  induction hnm with
  | refl => exact h
  | step _ ih => exact ih.succ

/-- Deeper levels than there are add no places. -/
theorem Nests.gatesAt_succ : s.gatesAt (n + 1) e = s.gatesAt n e := by
  induction n generalizing e with
  | zero =>
    cases e with
    | leaf x => rfl
    | gate i => exact h.elim
  | succ n ih =>
    cases e with
    | leaf x => rfl
    | gate i =>
      obtain ⟨F, hF, hall⟩ := h
      rw [gatesAt_gate hF, gatesAt_gate hF]
      exact congrArg _ (List.flatMap_congr fun e he => ih (hall e he))

theorem Nests.gatesAt_eq (hnm : n ≤ m) : s.gatesAt m e = s.gatesAt n e := by
  induction hnm with
  | refl => rfl
  | step hle ih => rw [(h.mono hle).gatesAt_succ, ih]

/-- Every gate below a place is nested no deeper than the place. -/
theorem Nests.of_mem_gatesAt {k : InstructionId} (hk : k ∈ s.gatesAt m e) : s.Nests P n (.gate k) := by
  induction m generalizing n e with
  | zero =>
    cases e with
    | leaf x => cases hk
    | gate i => cases hk
  | succ m ih =>
    cases e with
    | leaf x => cases hk
    | gate i =>
      cases n with
      | zero => exact h.elim
      | succ n =>
        have hall := h
        obtain ⟨F, hF, hall⟩ := hall
        rw [gatesAt_gate hF, List.mem_cons, List.mem_flatMap] at hk
        rcases hk with rfl | ⟨e, he, hk⟩
        · exact h
        · exact (ih (hall e he) hk).succ

end

/-- What is nested does not contain itself. -/
theorem Nests.not_mem_gatesAt (h : s.Nests P n (.gate i)) (hF : s.face i = some F) (he : e ∈ F.elements) :
    i ∉ s.gatesAt m e := by
  intro hmem
  induction n with
  | zero => exact h
  | succ n ih =>
    obtain ⟨G, hG, hall⟩ := h
    cases hF.symm.trans hG
    exact ih ((hall e he).of_mem_gatesAt hmem)

/-! ## Gates that contain themselves -/

/-- An instruction stands in the body of another one. -/
def Contains (s : Store) (i j : InstructionId) : Prop := ∃ x, s.instruction? i = some x ∧ j ∈ x.inside

/-- The instructions of a circuit, on all levels. -/
inductive Within (s : Store) (c : CircuitId) : InstructionId → Prop
  | data {x : Circuit} {i : InstructionId} (hx : s.circuit? c = some x) (hi : i ∈ x.data) : Within s c i
  | inside {i j : InstructionId} (hi : Within s c i) (hj : s.Contains i j) : Within s c j

/-- No gate of a circuit contains itself. -/
def IsNested (s : Store) (c : CircuitId) : Prop := ∀ i, s.Within c i → ¬ TransGen s.Contains i i

theorem Within.of_reflTransGen (hi : s.Within c i) (hij : ReflTransGen s.Contains i j) : s.Within c j := by
  induction hij with
  | refl => exact hi
  | tail _ hlast ih => exact ih.inside hlast

/-- Gates that do not contain themselves are nested to at most as many levels as there are of them: on a way
down no gate comes twice. -/
theorem nests_of_acyclic {room : Finset InstructionId}
    (hroom : ∀ j, ReflTransGen s.Contains i j → j ∈ room ∧ (∃ x, s.instruction? j = some x ∧
      (x.isComposite = false → P x)) ∧ ¬ TransGen s.Contains j j) : s.Nests P room.card (s.element i) := by
  induction hcard : room.card generalizing i room with
  | zero =>
    obtain ⟨hmem, -⟩ := hroom i .refl
    rw [Finset.card_eq_zero.mp hcard] at hmem
    exact absurd hmem (Finset.notMem_empty i)
  | succ n ih =>
    obtain ⟨hmem, ⟨x, hx, hleaf⟩, hacyclic⟩ := hroom i .refl
    cases hcomposite : x.isComposite with
    | false =>
      rw [element_of_leaf hx hcomposite]
      exact hleaf hcomposite
    | true =>
      obtain ⟨name, body, inverted, hop⟩ := isComposite_iff.mp hcomposite
      rw [element_of_composite hx hop]
      refine ⟨_, face_of_composite hx hop, fun e he => ?_⟩
      obtain ⟨j, hj, rfl⟩ := List.mem_map.mp he
      have hij : s.Contains i j := ⟨x, hx, by rw [Instruction.inside, hop]; exact hj⟩
      refine ih (fun k hk => ?_) ((Finset.card_erase_of_mem hmem).trans (by rw [hcard]; rfl))
      obtain ⟨hkroom, hfacts⟩ := hroom k (.head hij hk)
      refine ⟨Finset.mem_erase.mpr ⟨?_, hkroom⟩, hfacts⟩
      rintro rfl
      exact hacyclic (.head' hij hk)

variable {lib : Library} {lost loose : Set InstructionId} {libs : Set Library}

/-- What is in a circuit may be there. -/
theorem Orderly.member_of_within (hs : s.Orderly libs lost loose) (hi : s.Within c i) : s.Member lost loose c i := by
  induction hi with
  | data hx hi => exact hs.data c _ hx _ hi
  | inside _ hj ih =>
    obtain ⟨x, hx, hmem⟩ := hj
    obtain ⟨y, hy, rfl, -⟩ := ih.fits
    cases hx.symm.trans hy
    exact (hs.body _ x ih.kept hx _ hmem).toMember

theorem Orderly.fits_of_within (hs : s.Orderly libs lost loose) {d : Circuit}
    (hd : s.circuit? c = some d) (hi : s.Within c i) (hx : s.instruction? i = some x) : x.Fits d.registers := by
  obtain ⟨y, hy, rfl, d', hd', hfits⟩ := (hs.member_of_within hi).fits
  cases hx.symm.trans hy
  cases hd.symm.trans hd'
  exact hfits

theorem Known.exists_instruction (h : s.Known lost i) : ∃ x, s.instruction? i = some x :=
  ⟨_, Array.getElem?_eq_getElem h.2⟩

/-- What is in a circuit in which no gate contains itself is nested to at most as many levels as there are
instructions. -/
theorem nests_of_isNested (hs : s.Sound lib lost loose) (hc : s.IsNested c) (hi : s.Within c i)
    (hP : ∀ j x, s.Within c j → s.instruction? j = some x → x.isComposite = false → P x) :
    s.Nests P s.instructions.size (s.element i) := by
  have hnests : s.Nests P (Finset.range s.instructions.size).card (s.element i) := by
    refine nests_of_acyclic fun j hij => ?_
    have hj := hi.of_reflTransGen hij
    obtain ⟨x, hx⟩ := (hs.member_of_within hj).known.exists_instruction
    exact ⟨Finset.mem_range.mpr (instruction?_lt hx), ⟨x, hx, hP j x hj hx⟩, hc j hj⟩
  rwa [Finset.card_range] at hnests

/-! ## Flattening -/

/-- The instructions without a body that stand below a place, in order, if there are at most some levels. -/
def expand (s : Store) : Nat → Element → Option (List Instruction)
  | _, .leaf x => some [x]
  | 0, .gate _ => none
  | n + 1, .gate i => (s.face i).bind fun F => (F.elements.mapM (s.expand n)).map List.flatten

/-- The instructions without a body that stand below some places, in order. -/
def expandAll (s : Store) (n : Nat) (es : List Element) : Option (List Instruction) :=
  (es.mapM (s.expand n)).map List.flatten

/-- The instructions of a circuit with every gate replaced by its body, on all levels. -/
def flattened (s : Store) (c : CircuitId) : Option (List Instruction) :=
  (s.circuit? c).bind fun x => s.expandAll s.instructions.size (x.data.map s.element)

theorem expand_leaf (s : Store) (n : Nat) (x : Instruction) : s.expand n (.leaf x) = some [x] := by
  cases n <;> rfl

theorem expand_gate (h : s.face i = some F) : s.expand (n + 1) (.gate i) = s.expandAll n F.elements := by
  rw [expand, h, Option.bind_some, expandAll]

theorem expandAll_eq_some : s.expandAll n es = some xs ↔
    ∃ parts, List.Forall₂ (fun e part => s.expand n e = some part) es parts ∧ parts.flatten = xs := by
  rw [expandAll, Option.map_eq_some_iff]
  exact exists_congr fun parts => and_congr_left fun _ => mapM_eq_some

theorem flattened_of_some {x : Circuit} (hx : s.circuit? c = some x) :
    s.flattened c = s.expandAll s.instructions.size (x.data.map s.element) := by
  rw [flattened, hx, Option.bind_some]

/-- More levels change nothing. -/
theorem expand_succ (h : s.expand n e = some xs) : s.expand (n + 1) e = some xs := by
  induction n generalizing e xs with
  | zero =>
    cases e with
    | leaf x => exact h
    | gate i => cases h
  | succ n ih =>
    cases e with
    | leaf x => exact h
    | gate i =>
      obtain ⟨F, hF, -⟩ := Option.bind_eq_some_iff.mp h
      rw [expand_gate hF, expandAll_eq_some] at h ⊢
      obtain ⟨parts, hparts, hflat⟩ := h
      exact ⟨parts, hparts.imp fun _ _ => ih, hflat⟩

theorem expand_mono (h : s.expand n e = some xs) (hnm : n ≤ m) : s.expand m e = some xs := by
  induction hnm with
  | refl => exact h
  | step _ ih => exact expand_succ ih

theorem expandAll_of_forall (h : ∀ e ∈ es, ∃ xs, s.expand n e = some xs ∧ ∀ x ∈ xs, P x) :
    ∃ xs, s.expandAll n es = some xs ∧ ∀ x ∈ xs, P x := by
  obtain ⟨parts, hparts⟩ := exists_forall₂ h
  refine ⟨parts.flatten, expandAll_eq_some.mpr ⟨parts, hparts.imp fun _ _ h => h.1, rfl⟩, fun x hx => ?_⟩
  obtain ⟨part, hpart, hx⟩ := List.mem_flatten.mp hx
  obtain ⟨e, -, -, hall⟩ := exists_of_forall₂ hparts part hpart
  exact hall x hx

/-- What is nested can be flattened. -/
theorem expand_of_nests (h : s.Nests P n e) : ∃ xs, s.expand n e = some xs ∧ ∀ x ∈ xs, P x := by
  induction n generalizing e with
  | zero =>
    cases e with
    | leaf x => exact ⟨[x], rfl, fun y hy => List.mem_singleton.mp hy ▸ h⟩
    | gate i => exact h.elim
  | succ n ih =>
    cases e with
    | leaf x => exact ⟨[x], rfl, fun y hy => List.mem_singleton.mp hy ▸ h⟩
    | gate i =>
      obtain ⟨F, hF, hall⟩ := h
      rw [expand_gate hF]
      exact expandAll_of_forall fun e he => ih (hall e he)

theorem expandAll_of_nests (h : ∀ e ∈ es, s.Nests P n e) : ∃ xs, s.expandAll n es = some xs ∧ ∀ x ∈ xs, P x :=
  expandAll_of_forall fun e he => expand_of_nests (h e he)

theorem forall_of_expandAll (h : s.expandAll n es = some xs) (hxs : ∀ x ∈ xs, P x) :
    ∀ e ∈ es, ∃ part, s.expand n e = some part ∧ ∀ x ∈ part, P x := by
  obtain ⟨parts, hparts, rfl⟩ := expandAll_eq_some.mp h
  intro e he
  obtain ⟨part, hpart, hexpand⟩ := exists_of_forall₂ hparts.flip e he
  exact ⟨part, hexpand, fun x hx => hxs x (List.mem_flatten.mpr ⟨part, hpart, hx⟩)⟩

/-- What can be flattened is nested. -/
theorem nests_of_expand (h : s.expand n e = some xs) (hxs : ∀ x ∈ xs, P x) : s.Nests P n e := by
  induction n generalizing e xs with
  | zero =>
    cases e with
    | leaf x =>
      cases h
      exact hxs x List.mem_cons_self
    | gate i => cases h
  | succ n ih =>
    cases e with
    | leaf x =>
      cases h
      exact hxs x List.mem_cons_self
    | gate i =>
      obtain ⟨F, hF, -⟩ := Option.bind_eq_some_iff.mp h
      rw [expand_gate hF] at h
      refine ⟨F, hF, fun e he => ?_⟩
      obtain ⟨part, hpart, hall⟩ := forall_of_expandAll h hxs e he
      exact ih hpart hall

theorem expandAll_mono (h : s.expandAll n es = some xs) (hnm : n ≤ m) : s.expandAll m es = some xs := by
  rw [expandAll_eq_some] at h ⊢
  obtain ⟨parts, hparts, hflat⟩ := h
  exact ⟨parts, hparts.imp fun _ _ hpart => expand_mono hpart hnm, hflat⟩

end Store

end QasmCircuit
