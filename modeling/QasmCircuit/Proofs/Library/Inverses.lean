import Mathlib.Data.List.GetD
import QasmCircuit.Proofs.Library.Links

/-!
# Inverting twice

A rule takes each parameter of an inverse from a parameter of the gate, up to its sign (`Family.taken`). Two rules in a
row are a rule again (`Family.compose`), and the only rule that restores all parameters is the one that keeps them. So
whether a family and its inverse undo each other can be read off their rules. Each family is accepted on its own, and
nothing that is checked says so.

> `Library.invert_twice_iff`: when inverting twice gives back a gate.
-/

namespace QasmCircuit

open Outcome Decimal List

namespace Family

variable {count : Nat} {f : Family} {rule back : List (Int × Int)} {values : List Float}

/-- The parameter that a rule takes from some values. -/
def taken (values : List Float) (p : Int × Int) : Float :=
  signed (p.2 < 0) oneBits * values.getD p.1.toNat (signed false 0)

/-- Two rules in a row: the second one takes what the first one has taken. -/
def compose (rule back : List (Int × Int)) : List (Int × Int) :=
  back.map fun p => ((rule.getD p.1.toNat (0, 1)).1, p.2 * (rule.getD p.1.toNat (0, 1)).2)

theorem invertParams_of_isRule (h : IsRule values.length f.inverseParams) :
    f.invertParams values = .ok (f.inverseParams.map (taken values)) := by
  rw [invertParams, mapM_eq_ok, forall₂_map_right_iff, forall₂_same]
  intro p hp
  obtain ⟨⟨hlow, hhigh⟩, hfactor⟩ := h.2 p hp
  obtain ⟨n, hn⟩ := Int.eq_ofNat_of_zero_le hlow
  have hlt : n < values.length := by omega
  dsimp only
  rw [taken, hn, Sequence.pick?_ofNat, getElem?_eq_getElem hlt, Int.toNat_natCast, getD_eq_getElem _ _ hlt]
  dsimp only
  rw [scale, ofInt?_unit hfactor]

theorem map_taken_keepAll (hfinite : ∀ x ∈ values, x.isFinite) :
    (keepAll values.length).map (taken values) = values := by
  refine ext_getElem (by simp [keepAll]) fun i hi hi' => ?_
  simp only [keepAll, map_map, getElem_map, getElem_range, Function.comp_apply, taken, Int.toNat_natCast,
    getD_eq_getElem _ _ hi']
  exact Decimal.one_mul (hfinite _ (getElem_mem hi'))

theorem isRule_compose (hrule : IsRule count rule) (hback : IsRule count back) : IsRule count (compose rule back) := by
  refine ⟨(length_map _).trans hback.1, fun p hp => ?_⟩
  obtain ⟨q, hq, rfl⟩ := mem_map.mp hp
  obtain ⟨⟨hlow, hhigh⟩, hsign⟩ := hback.2 q hq
  have hlt : q.1.toNat < rule.length := by have := hrule.1; omega
  obtain ⟨hrange, hsign'⟩ := hrule.2 _ (getElem_mem hlt)
  dsimp only
  rw [getD_eq_getElem _ _ hlt]
  refine ⟨hrange, ?_⟩
  rcases hsign with h | h <;> rcases hsign' with h' | h' <;> rw [h, h'] <;> simp

/-- What is taken from parameters that were taken before is taken by the two rules in a row. -/
theorem map_taken_taken (hrule : IsRule values.length rule) (hback : IsRule values.length back)
    (hfinite : ∀ x ∈ values, x.isFinite) :
    back.map (taken (rule.map (taken values))) = (compose rule back).map (taken values) := by
  rw [compose, map_map]
  refine map_congr_left fun p hp => ?_
  obtain ⟨⟨hlow, hhigh⟩, hsign⟩ := hback.2 p hp
  have hlt : p.1.toNat < rule.length := by have := hrule.1; omega
  obtain ⟨⟨hlow', hhigh'⟩, hsign'⟩ := hrule.2 _ (getElem_mem hlt)
  have hlt' : (rule[p.1.toNat]).1.toNat < values.length := by omega
  rw [Function.comp_apply, taken, getD_eq_getElem _ _ (by rwa [length_map]), getElem_map,
    getD_eq_getElem _ _ hlt, taken, taken, getD_eq_getElem _ _ hlt',
    unit_mul_unit (hfinite _ (getElem_mem hlt'))]
  rcases hsign with h | h <;> rcases hsign' with h' | h' <;> rw [h, h'] <;> rfl

/-- A rule that restores all parameters keeps each of them where it is. -/
theorem eq_keepAll (hrule : IsRule count rule) (h : ∀ values : List Float, values.length = count →
    (∀ x ∈ values, x.isFinite) → rule.map (taken values) = values) : rule = keepAll count := by
  have hone : oneBits < infinityBits := by decide
  have hzero : 0 < infinityBits := by decide
  refine ext_getElem (by rw [hrule.1, keepAll, length_map, length_range]) fun k hk hk' => ?_
  obtain ⟨⟨hlow, hhigh⟩, hsign⟩ := hrule.2 _ (getElem_mem hk)
  have hkept := hrule.1
  -- A one at a single place shows where its parameter is taken from.
  have hunit := h ((List.replicate count (signed false 0)).set k (signed false oneBits)) (by simp) fun x hx => by
    rcases mem_or_eq_of_mem_set hx with hx | rfl
    · exact eq_of_mem_replicate hx ▸ isFinite_signed hzero
    · exact isFinite_signed hone
  have hplace := congrArg (fun vs => vs.getD k (signed false 0)) hunit
  have hlt : (rule[k]).1.toNat < count := by omega
  simp only [keepAll, getElem_map, getElem_range]
  rw [getD_eq_getElem _ _ (by simpa using hk), getElem_map, getD_eq_getElem _ _ (by simp; omega),
    getElem_set_self, taken, getD_eq_getElem _ _ (by simpa using hlt), getElem_set] at hplace
  by_cases hsame : k = (rule[k]).1.toNat
  · rw [if_pos hsame, unit_mul_signed hone, Bool.bne_false] at hplace
    have hpos : ¬ (rule[k]).2 < 0 := by
      intro hneg
      rw [decide_eq_true hneg] at hplace
      have hbits := congrArg Float.toBits hplace
      rw [toBits_signed hone.le, toBits_signed hone.le] at hbits
      exact absurd hbits (by decide)
    refine Prod.ext ?_ ?_
    · dsimp only
      omega
    · dsimp only
      omega
  · rw [if_neg hsame, getElem_replicate, unit_mul_signed hzero] at hplace
    have hbits := congrArg magnitudeBits hplace
    rw [magnitudeBits_signed hzero.le, magnitudeBits_signed hone.le] at hbits
    exact absurd hbits (by decide)

/-- Two rules restore all parameters just if they keep them in a row. -/
theorem compose_eq_keepAll_iff (hrule : IsRule count rule) (hback : IsRule count back) :
    compose rule back = keepAll count ↔ ∀ values : List Float, values.length = count →
      (∀ x ∈ values, x.isFinite) → back.map (taken (rule.map (taken values))) = values := by
  constructor
  · rintro h values rfl hfinite
    rw [map_taken_taken hrule hback hfinite, h, map_taken_keepAll hfinite]
  · intro h
    refine eq_keepAll (isRule_compose hrule hback) fun values hlength hfinite => ?_
    subst hlength
    rw [← map_taken_taken hrule hback hfinite]
    exact h values rfl hfinite

end Family

namespace Library

/-- Every family of an accepted library can be inverted twice, whatever the parameters. That gives back the family and
all parameters just if the inverse of the inverse is the family, and the two rules in a row keep each parameter. -/
theorem invert_twice_iff {d : Datum} {lib : Library} (h : ofDatum d = .ok lib) {f : Family} (hf : f ∈ lib.families) :
    ∃ g, lib.find? f.inverseName = some g ∧ g.params.length = f.params.length ∧
      (∀ values, values.length = f.params.length →
        ∃ new old, f.invertParams values = .ok new ∧ g.invertParams new = .ok old) ∧
      ((g.inverseName = f.name ∧ ∀ values, values.length = f.params.length → (∀ x ∈ values, x.isFinite = true) →
          f.invertParams values >>= g.invertParams = .ok values) ↔
        g.inverseName = f.name ∧ Family.compose f.inverseParams g.inverseParams = Family.keepAll f.params.length) := by
  obtain ⟨hrule, hinverse, -⟩ := checks_of_ofDatum h f hf
  obtain ⟨g, hg, -, hparams⟩ := checkInverse_ok hinverse
  have hback := (checks_of_ofDatum h g (mem_of_find? hg)).1
  rw [hparams] at hback
  have htwice : ∀ values, values.length = f.params.length →
      f.invertParams values = .ok (f.inverseParams.map (Family.taken values)) ∧
      g.invertParams (f.inverseParams.map (Family.taken values)) =
        .ok (g.inverseParams.map (Family.taken (f.inverseParams.map (Family.taken values)))) := by
    intro values hlength
    refine ⟨Family.invertParams_of_isRule (hlength ▸ hrule), Family.invertParams_of_isRule ?_⟩
    rw [List.length_map, hrule.1]
    exact hback
  refine ⟨g, hg, hparams, fun values hlength => ⟨_, _, htwice values hlength⟩, and_congr_right fun _ => ?_⟩
  rw [Family.compose_eq_keepAll_iff hrule hback]
  refine forall_congr' fun values => forall_congr' fun hlength => forall_congr' fun _ => ?_
  obtain ⟨hfirst, hsecond⟩ := htwice values hlength
  rw [hfirst]
  exact (congrArg (· = Except.ok values) hsecond).to_iff.trans (by rw [Except.ok.injEq])

/-- The data of a library whose only gate has two parameters and inverts to itself. -/
def pairData (templates : List String) : Datum :=
  .mapping [(.text "families", .mapping [(.text "r", .mapping [(.text "params", .list [.text "a", .text "b"]),
    (.text "arity", .int 1), (.text "inverse", .mapping [(.text "params", .list (templates.map .text))])])])]

/-- The gate with two parameters. -/
def pairFamily (rule : List (Int × Int)) : Family := ⟨"r", ["a", "b"], 1, "r", rule, none⟩

/-- Two parameters that are swapped and negated. -/
theorem invert_twice_iff_swapped : ∃ g, ofDatum (pairData ["-b", " - a"]) = .ok ⟨[g]⟩ ∧
    ∀ values, values.length = 2 → (∀ x ∈ values, x.isFinite = true) →
      g.invertParams values >>= g.invertParams = .ok values := by
  have h : ofDatum (pairData ["-b", " - a"]) = .ok ⟨[pairFamily [(1, -1), (0, -1)]]⟩ :=
    toOption_eq_some.mp (by decide +kernel)
  obtain ⟨g, hg, -, -, hiff⟩ := invert_twice_iff h List.mem_cons_self
  obtain rfl := Option.some.inj (hg.symm.trans (by decide +kernel : _ = some (pairFamily [(1, -1), (0, -1)])))
  exact ⟨_, h, (hiff.mpr (by decide +kernel)).2⟩

/-- A rule that takes one parameter twice is accepted, and the other parameter is lost. -/
theorem invert_twice_repeated : ∃ g, ofDatum (pairData ["a", "a"]) = .ok ⟨[g]⟩ ∧ g.inverseName = g.name ∧
    g.invertParams [1.0, 2.0] >>= g.invertParams = .ok [1.0, 1.0] ∧ [1.0, 1.0] ≠ ([1.0, 2.0] : List Float) := by
  refine ⟨pairFamily [(0, 1), (0, 1)], toOption_eq_some.mp (by decide +kernel), rfl,
    toOption_eq_some.mp (by decide +kernel), by decide +kernel⟩

end Library

end QasmCircuit
