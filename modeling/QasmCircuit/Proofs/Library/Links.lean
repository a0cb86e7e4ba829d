import QasmCircuit.Library.OfDatum
import QasmCircuit.Proofs.Circuit.Sound

/-!
# Libraries that data describe

Every entry of a library is checked on its own, and then its links are. So the rule for the parameters of an inverse
has a parameter of the gate for each of them, up to its sign, and every link leads to a family that fits.

> `Library.isRegular_of_ofDatum`: the links of an accepted library lead to families that fit.
-/

namespace QasmCircuit

open Outcome List

/-- A rule that has a parameter of the gate for each parameter of the inverse, up to its sign. -/
def Family.IsRule (count : Nat) (rule : List (Int × Int)) : Prop :=
  rule.length = count ∧ ∀ p ∈ rule, (0 ≤ p.1 ∧ p.1 < count) ∧ (p.2 = 1 ∨ p.2 = -1)

theorem Family.isRule_keepAll (count : Nat) : IsRule count (keepAll count) := by
  refine ⟨by rw [keepAll, length_map, length_range], fun p hp => ?_⟩
  obtain ⟨i, hi, rfl⟩ := mem_map.mp hp
  have hlt := mem_range.mp hi
  exact ⟨by dsimp only; omega, .inl rfl⟩

namespace Library

variable {gate : String} {f : Family} {params : List String} {fs : List Family}

/-! ## Entries -/

theorem template_ok {p : Int × Int} (h : template gate params d = .ok p) :
    (0 ≤ p.1 ∧ p.1 < params.length) ∧ (p.2 = 1 ∨ p.2 = -1) := by
  unfold template at h
  split at h
  · dsimp only at h
    split at h
    · next i hi =>
      cases h
      have hlt := (findIdx?_eq_some_iff_getElem.mp hi).1
      refine ⟨by dsimp only; omega, ?_⟩
      -- The factor is the sign in front of the name.
      dsimp only
      split
      · exact .inr rfl
      · exact .inl rfl
    · cases h
  · cases h

theorem inverseParamsOf_ok {d : Option Datum} {rule : List (Int × Int)}
    (h : inverseParamsOf gate params d = .ok rule) : Family.IsRule params.length rule := by
  unfold inverseParamsOf at h
  split at h
  · cases h
    exact Family.isRule_keepAll _
  · cases h
    exact Family.isRule_keepAll _
  · next items =>
    split at h
    · next hlength =>
      have hall := mapM_eq_ok.mp h
      refine ⟨hall.length_eq.symm.trans hlength, fun p hp => ?_⟩
      obtain ⟨item, -, hitem⟩ := exists_of_forall₂ hall p hp
      exact template_ok hitem
    · cases h
  · cases h

theorem family_ok (h : family gate d = .ok f) : Family.IsRule f.params.length f.inverseParams := by
  unfold family at h
  split at h
  · obtain ⟨params, -, h⟩ := bind_eq_ok.mp h
    obtain ⟨arity, -, h⟩ := bind_eq_ok.mp h
    obtain ⟨controlled, -, h⟩ := bind_eq_ok.mp h
    split at h
    · cases h
      exact Family.isRule_keepAll _
    · cases h
      exact Family.isRule_keepAll _
    · obtain ⟨inverseName, -, h⟩ := bind_eq_ok.mp h
      obtain ⟨rule, hrule, h⟩ := bind_eq_ok.mp h
      cases h
      exact inverseParamsOf_ok hrule
    · cases h
  · cases h

theorem mem_of_mem_insertInto {g : Family} (h : g ∈ insertInto f fs) : g = f ∨ g ∈ fs := by
  induction fs with
  | nil => exact .inl (mem_singleton.mp h)
  | cons k rest ih =>
    rw [insertInto] at h
    split at h
    · exact (mem_cons.mp h).imp_right (mem_cons_of_mem k)
    · rcases mem_cons.mp h with rfl | h
      · exact .inr mem_cons_self
      · exact (ih h).imp_right (mem_cons_of_mem k)

theorem mem_of_mem_ofFamilies {g : Family} (h : g ∈ (ofFamilies fs).families) : g ∈ fs := by
  suffices hfold : ∀ lib : Library, g ∈ (fs.foldl insert lib).families → g ∈ lib.families ∨ g ∈ fs from
    (hfold ⟨[]⟩ h).elim (fun hnil => absurd hnil not_mem_nil) id
  clear h
  induction fs with
  | nil => exact fun lib h => .inl h
  | cons f fs ih =>
    intro lib h
    rcases ih (lib.insert f) h with h | h
    · rcases mem_of_mem_insertInto h with rfl | h
      · exact .inr mem_cons_self
      · exact .inl h
    · exact .inr (mem_cons_of_mem f h)

/-! ## Links -/

theorem checkInverse_ok (h : checkInverse lib f = .ok ()) :
    ∃ g, lib.find? f.inverseName = some g ∧ g.arity = f.arity ∧ g.params.length = f.params.length := by
  unfold checkInverse at h
  split at h
  · cases h
  · next g hg =>
    split at h
    · next hsame =>
      rw [Bool.and_eq_true, decide_eq_true_eq, decide_eq_true_eq] at hsame
      exact ⟨g, hg, hsame⟩
    · cases h

theorem checkControlled_ok (h : checkControlled lib f = .ok ()) :
    ∀ name ∈ f.controlled, ∃ g, lib.find? name = some g ∧ g.arity = f.arity + 1 ∧
      g.params.length = f.params.length := by
  intro name hname
  unfold checkControlled at h
  rw [Option.mem_def.mp hname] at h
  dsimp only at h
  split at h
  · cases h
  · next g hg =>
    split at h
    · next hsame =>
      rw [Bool.and_eq_true, decide_eq_true_eq, decide_eq_true_eq] at hsame
      exact ⟨g, hg, hsame⟩
    · cases h

variable {d : Datum} {lib : Library}

/-- What is checked of every family of a library. -/
theorem checks_of_ofDatum (h : ofDatum d = .ok lib) : ∀ f ∈ lib.families,
    Family.IsRule f.params.length f.inverseParams ∧ checkInverse lib f = .ok () ∧ checkControlled lib f = .ok () := by
  unfold ofDatum at h
  split at h
  · split at h
    · obtain ⟨families, hfamilies, h⟩ := bind_eq_ok.mp h
      obtain ⟨_, hlinks, h⟩ := bind_eq_ok.mp h
      cases h
      intro f hf
      obtain ⟨_, hinverse, hcontrolled⟩ := bind_eq_ok.mp (forM_eq_ok.mp hlinks f hf)
      obtain ⟨entry, -, hentry⟩ := exists_of_forall₂ (mapM_eq_ok.mp hfamilies) f (mem_of_mem_ofFamilies hf)
      exact ⟨family_ok hentry, hinverse, hcontrolled⟩
    · cases h
  · cases h

/-- The links of an accepted library lead to families that fit. -/
theorem isRegular_of_ofDatum (h : ofDatum d = .ok lib) : lib.IsRegular where
  inverse f g hf hg := by
    obtain ⟨hrule, hinverse, -⟩ := checks_of_ofDatum h f (mem_of_find? hf)
    obtain ⟨k, hk, harity, hparams⟩ := checkInverse_ok hinverse
    cases hk.symm.trans hg
    exact ⟨hrule.1.trans hparams.symm, harity⟩
  factor f hf p hp := ((checks_of_ofDatum h f (mem_of_find? hf)).1.2 p hp).2
  controlled f name g hf hname hg := by
    obtain ⟨k, hk, hfits⟩ := checkControlled_ok (checks_of_ofDatum h f (mem_of_find? hf)).2.2 name hname
    cases hk.symm.trans hg
    exact hfits

end Library

end QasmCircuit
