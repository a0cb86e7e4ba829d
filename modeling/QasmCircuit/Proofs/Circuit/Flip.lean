import QasmCircuit.Library.Packaged
import QasmCircuit.Proofs.Circuit.Graph
import QasmCircuit.Proofs.Circuit.Modify
import QasmCircuit.Proofs.Library.Inverses

/-!
# Inverses of instructions, and flipped gates

The inverse of an instruction without a body comes from the library. A gate with a body is flipped: what stands in
its body is inverted and put in reverse order, and its flag is turned. Inverting and flipping undo themselves
(`Instruction.inverted_inverted`, `Face.flip_flip`), since the packaged library pairs its families
(`Library.isInvolutive_packaged`) and a sign that is turned twice is the old one.
-/

namespace QasmCircuit

open Outcome

/-! ## Families -/

namespace Family

theorem invertParams_eq {f : Family} {values : List Float} (hself : f.selfInverse)
    (hlength : values.length = f.params.length) (hfinite : ∀ x ∈ values, x.isFinite) :
    f.inverseName = f.name ∧ f.invertParams values = .ok values := by
  rw [selfInverse, Bool.and_eq_true, beq_iff_eq, beq_iff_eq, ← hlength] at hself
  refine ⟨hself.1, ?_⟩
  rw [invertParams_of_isRule (by rw [hself.2]; exact isRule_keepAll _), hself.2, map_taken_keepAll hfinite]

end Family

namespace Library

/-- The families of a library are paired with their inverses, and the rules for the parameters undo each other. -/
structure IsInvolutive (lib : Library) : Prop where
  inverse : ∀ f, lib.find? f.name = some f → ∃ g, lib.find? f.inverseName = some g ∧ g.inverseName = f.name
  params : ∀ f g values, lib.find? f.name = some f → lib.find? f.inverseName = some g →
    values.length = f.params.length → (∀ x ∈ values, x.isFinite) →
    ∃ new, f.invertParams values = .ok new ∧ g.invertParams new = .ok values

/-- Every family of a library has an inverse there, and its rule gives parameters for it. -/
def HasInverses (lib : Library) : Prop :=
  ∀ f values, lib.find? f.name = some f → values.length = f.params.length → (∀ x ∈ values, x.isFinite) →
    ∃ g new, lib.find? f.inverseName = some g ∧ f.invertParams values = .ok new

theorem IsInvolutive.hasInverses {lib : Library} (h : lib.IsInvolutive) : lib.HasInverses := by
  intro f values hf hlength hfinite
  obtain ⟨g, hg, -⟩ := h.inverse f hf
  obtain ⟨new, hnew, -⟩ := h.params f g values hf hg hlength hfinite
  exact ⟨g, new, hg, hnew⟩

/-- The packaged library pairs its families, and the rules of a pair keep all parameters in a row. -/
theorem packaged_pairs : ∀ f ∈ packaged.families, ∃ g ∈ packaged.families, packaged.find? f.inverseName = some g ∧
    g.inverseName = f.name ∧ Family.compose f.inverseParams g.inverseParams = Family.keepAll f.params.length := by
  decide

theorem packaged_rules : ∀ f ∈ packaged.families, Family.IsRule f.params.length f.inverseParams ∧
    ∀ g ∈ packaged.find? f.inverseName, g.params.length = f.params.length := by
  unfold Family.IsRule
  decide

theorem isInvolutive_packaged : packaged.IsInvolutive where
  inverse f hf := by
    obtain ⟨g, -, hg, hname, -⟩ := packaged_pairs f (mem_of_find? hf)
    exact ⟨g, hg, hname⟩
  params f g values hf hg hlength hfinite := by
    obtain ⟨g', hmem, hg', -, hkept⟩ := packaged_pairs f (mem_of_find? hf)
    cases hg.symm.trans hg'
    obtain ⟨hrule, hparams⟩ := packaged_rules f (mem_of_find? hf)
    have hback := (packaged_rules g hmem).1
    rw [hparams g hg] at hback
    refine ⟨_, Family.invertParams_of_isRule (hlength ▸ hrule), ?_⟩
    rw [Family.invertParams_of_isRule (by rw [List.length_map, hrule.1]; exact hback),
      (Family.compose_eq_keepAll_iff hrule hback).mp hkept values hlength hfinite]

end Library

/-! ## Instructions -/

namespace Instruction

variable {lib : Library} {x y : Instruction} {f : Family}

/-- A statement undoes another one: a gate is replaced by its inverse in the library, with the parameters that go
with it, on the same operands and with the same modifiers; a barrier stays as it is. -/
def IsInverse (lib : Library) (x y : Instruction) : Prop :=
  match x.operation with
  | .atomic f => ∃ g params, lib.find? f.inverseName = some g ∧ f.invertParams x.params = .ok params ∧
      y = { x with operation := .atomic g, params }
  | .barrier => y = x
  | _ => False

/-- The inverse of an instruction without a body. Whatever has none stays as it is. -/
def inverted (lib : Library) (x : Instruction) : Instruction :=
  match x.operation with
  | .atomic f =>
    match lib.find? f.inverseName, f.invertParams x.params with
    | some g, .ok params => { x with operation := .atomic g, params }
    | _, _ => x
  | _ => x

theorem inverted_of_atomic {g : Family} {params : List Float} (hop : x.operation = .atomic f)
    (hg : lib.find? f.inverseName = some g) (hparams : f.invertParams x.params = .ok params) :
    x.inverted lib = { x with operation := .atomic g, params } := by
  rw [inverted, hop]
  dsimp only
  rw [hg, hparams]

theorem inverted_of_not_atomic (hop : ∀ f, x.operation ≠ .atomic f) : x.inverted lib = x := by
  unfold inverted
  split
  · next f hf => exact absurd hf (hop f)
  · rfl

/-- Every gate of a library with inverses has one. -/
theorem exists_inverse (hlib : lib.HasInverses) (hop : x.operation = .atomic f) (hx : x.IsProper lib) :
    ∃ g params, lib.find? f.inverseName = some g ∧ f.invertParams x.params = .ok params := by
  rw [IsProper, hop] at hx
  obtain ⟨hf, hlength, hfinite, -⟩ := hx
  exact hlib f x.params hf hlength hfinite

theorem isInverse_inverted (hlib : lib.IsInvolutive) (hx : x.IsProper lib) (hleaf : x.isComposite = false)
    (hunitary : x.operation ≠ .measure) : x.IsInverse lib (x.inverted lib) := by
  unfold IsInverse
  split
  · next f hop =>
    obtain ⟨g, params, hg, hparams⟩ := exists_inverse hlib.hasInverses hop hx
    exact ⟨g, params, hg, hparams, inverted_of_atomic hop hg hparams⟩
  · next hop => exact inverted_of_not_atomic fun f hf => nomatch hop.symm.trans hf
  · next hatomic hbarrier =>
    cases hop : x.operation with
    | atomic f => exact hatomic f hop
    | barrier => exact hbarrier hop
    | measure => exact hunitary hop
    | composite name body flag => exact absurd_leaf hleaf hop

theorem inverted_ne_measure (h : x.operation ≠ .measure) : (x.inverted lib).operation ≠ .measure := by
  unfold inverted
  split
  · split
    · exact fun hop => nomatch hop
    · exact h
  · exact h

/-- A gate that is its own inverse is what its inverse is. -/
theorem inverted_of_selfInverse (hop : x.operation = .atomic f) (hx : x.IsProper lib)
    (hself : f.selfInverse) : x.inverted lib = x := by
  rw [IsProper, hop] at hx
  obtain ⟨hf, hlength, hfinite, -⟩ := hx
  obtain ⟨hname, hparams⟩ := Family.invertParams_eq hself hlength hfinite
  rw [inverted_of_atomic hop (hname ▸ hf) hparams]
  cases x
  cases hop
  rfl

/-- Inverting twice changes nothing. -/
theorem inverted_inverted (hlib : lib.IsInvolutive) (hx : x.IsProper lib) : (x.inverted lib).inverted lib = x := by
  by_cases hatomic : ∃ f, x.operation = .atomic f
  · obtain ⟨f, hop⟩ := hatomic
    rw [IsProper, hop] at hx
    obtain ⟨hf, hlength, hfinite, -⟩ := hx
    obtain ⟨g, hg, hback⟩ := hlib.inverse f hf
    obtain ⟨params, hparams, hold⟩ := hlib.params f g x.params hf hg hlength hfinite
    rw [← hback] at hf
    have hagain : Instruction.inverted lib { x with operation := .atomic g, params } =
        { x with operation := .atomic f, params := x.params } :=
      @inverted_of_atomic lib { x with operation := .atomic g, params } g f x.params rfl hf hold
    rw [inverted_of_atomic hop hg hparams, hagain, ← hop]
  · have hkeep : x.inverted lib = x := inverted_of_not_atomic fun f hf => hatomic ⟨f, hf⟩
    rw [hkeep, hkeep]

/-- A gate with a body whose flag is turned. -/
def turned (x : Instruction) : Instruction :=
  match x.operation with
  | .composite name body flag => { x with operation := .composite name body (!flag) }
  | _ => x

theorem turned_turned (x : Instruction) : x.turned.turned = x := by
  unfold turned
  cases hop : x.operation with
  | composite name body flag =>
    cases x
    cases hop
    dsimp only
    rw [Bool.not_not]
  | _ => simp only [hop]

end Instruction

/-! ## Faces -/

/-- What stands at a place, inverted. A gate with a body keeps its place. -/
def Element.inverted (lib : Library) : Element → Element
  | .gate i => .gate i
  | .leaf x => .leaf (x.inverted lib)

namespace Face

/-- A gate with a body, inverted. -/
def flip (lib : Library) (F : Face) : Face := ⟨F.head.turned, F.elements.reverse.map (Element.inverted lib)⟩

/-- What stands in the body of a gate is as its operation asks for. -/
def IsProper (lib : Library) (F : Face) : Prop := ∀ x, .leaf x ∈ F.elements → x.IsProper lib

variable {lib : Library} {F : Face}

theorem flip_flip (hlib : lib.IsInvolutive) (hF : F.IsProper lib) : (F.flip lib).flip lib = F := by
  have helements : (F.elements.map (Element.inverted lib)).map (Element.inverted lib) = F.elements := by
    rw [List.map_map]
    refine (List.map_congr_left fun e he => ?_).trans (List.map_id _)
    cases e with
    | gate i => rfl
    | leaf x => exact congrArg Element.leaf (Instruction.inverted_inverted hlib (hF x he))
  have hflip : (F.flip lib).flip lib =
      ⟨F.head.turned.turned, ((F.elements.reverse.map (Element.inverted lib)).reverse).map
      (Element.inverted lib)⟩ := rfl
  rw [hflip, Instruction.turned_turned, ← List.map_reverse, List.reverse_reverse, helements]

/-- An even number of flips changes nothing. -/
theorem flip_iterate_even (hlib : lib.IsInvolutive) (hF : F.IsProper lib) (m : Nat) : (flip lib)^[m + m] F = F := by
  rw [← Nat.two_mul, Function.iterate_mul]
  exact Function.iterate_fixed (flip_flip hlib hF) m

/-- An odd number of flips is one. -/
theorem flip_iterate_odd (hlib : lib.IsInvolutive) (hF : F.IsProper lib) {m : Nat} (hm : Odd m) :
    (flip lib)^[m] F = F.flip lib := by
  obtain ⟨k, rfl⟩ := hm
  have hsucc : (flip lib)^[2 * k + 1] F = ((flip lib)^[2 * k] F).flip lib := Function.iterate_succ_apply' ..
  rw [hsucc, Nat.two_mul, flip_iterate_even hlib hF]

/-- What holds of all that stands in a body, and does not depend on inversion, holds however often the gate is
flipped. -/
theorem forall_elements_iterate {Q : Element → Prop} (hQ : ∀ e, Q e → Q (e.inverted lib)) (m : Nat)
    (h : ∀ e ∈ F.elements, Q e) : ∀ e ∈ ((flip lib)^[m] F).elements, Q e := by
  induction m with
  | zero => exact h
  | succ m ih =>
    rw [Function.iterate_succ_apply']
    intro e he
    obtain ⟨e', he', rfl⟩ := List.mem_map.mp he
    exact hQ e' (ih e' (List.mem_reverse.mp he'))

theorem perm_flatMap_iterate {α : Type} {f : Element → List α} (hf : ∀ e, f (e.inverted lib) = f e) (m : Nat) :
    (((flip lib)^[m] F).elements.flatMap f).Perm (F.elements.flatMap f) := by
  induction m with
  | zero => exact .refl _
  | succ m ih =>
    rw [Function.iterate_succ_apply']
    have hflip : ((((flip lib)^[m] F).flip lib).elements.flatMap f) =
        ((flip lib)^[m] F).elements.reverse.flatMap f := by
      rw [flip, List.flatMap_map]
      exact List.flatMap_congr fun e _ => hf e
    rw [hflip]
    exact ((List.reverse_perm _).flatMap_right f).trans ih

end Face

end QasmCircuit
