import QasmCircuit.Proofs.Circuit.Agree
import QasmCircuit.Proofs.Circuit.Reversal

/-!
# Inverting twice

However often a gate is flipped when a circuit is inverted, it is flipped as often when the circuit is inverted
again: the places are the same. An even number of flips changes nothing, so that every gate is as it was, and what
stands in the circuit is as well.
-/

namespace QasmCircuit

open Outcome List

variable {lib : Library} {lost loose : Set InstructionId} {s : Store} {c : CircuitId} {x : Circuit}
  {e : Element}

namespace Store

variable {t : Store} {P : Instruction → Prop} {n : Nat} {flips : InstructionId → Nat}
  {data : List InstructionId}

theorem Nests.inverted (hP : ∀ x, P x → P (x.inverted lib)) (h : s.Nests P n e) :
    s.Nests P n (e.inverted lib) := by
  cases e with
  | gate i => exact h
  | leaf x => exact nests_leaf.mpr (hP x (nests_leaf.mp h))

theorem inverted_inverted (hlib : lib.IsInvolutive) (h : s.Nests (Instruction.IsInvertible lib) n e) :
    (e.inverted lib).inverted lib = e := by
  cases e with
  | gate i => rfl
  | leaf y => exact congrArg Element.leaf (Instruction.inverted_inverted hlib (nests_leaf.mp h).proper)

/-- What stands in an inverted circuit is nested as before. -/
theorem Flips.nests_data (hP : ∀ x, P x → P (x.inverted lib)) (hst : s.Flips lib flips t)
    (hn : ∀ i ∈ x.data, s.Nests P n (s.element i))
    (hdata : data.map t.element = x.data.reverse.map fun i => (s.element i).inverted lib) :
    ∀ i ∈ data, t.Nests P n (t.element i) := by
  intro i hi
  have hmem : t.element i ∈ x.data.reverse.map fun i => (s.element i).inverted lib := hdata ▸ mem_map_of_mem hi
  obtain ⟨j, hj, hij⟩ := mem_map.mp hmem
  rw [← hij]
  exact hst.nests hP ((hn j (mem_reverse.mp hj)).inverted hP)

/-- The gates of an inverted circuit stand at as many places as before. -/
theorem Flips.perm_places (hst : s.Flips lib flips t)
    (hdata : data.map t.element = x.data.reverse.map fun i => (s.element i).inverted lib) :
    (data.flatMap fun i => t.gatesAt n (t.element i)).Perm (x.data.flatMap fun i => s.gatesAt n (s.element i)) := by
  have hmap : (data.flatMap fun i => t.gatesAt n (t.element i)) = (data.map t.element).flatMap (t.gatesAt n) :=
    (flatMap_map ..).symm
  rw [hmap, hdata]
  refine (Perm.flatMap_left _ fun e _ => hst.perm_gatesAt n e).trans ?_
  rw [flatMap_map]
  have hinverted : (x.data.reverse.flatMap fun i => s.gatesAt n ((s.element i).inverted lib)) =
      x.data.reverse.flatMap fun i => s.gatesAt n (s.element i) :=
    flatMap_congr fun i _ => s.gatesAt_inverted n (s.element i)
  rw [hinverted]
  exact (reverse_perm _).flatMap_right _

theorem face_isProper (hs : s.Sound lib lost loose) {i : InstructionId} (hi : i ∉ lost) {F : Face}
    (hF : s.face i = some F) : F.IsProper lib := by
  obtain ⟨y, name, body, flag, hy, hop, rfl⟩ := exists_of_face hF
  intro z hz
  obtain ⟨j, hj, helement⟩ := mem_map.mp hz
  have hmember := (hs.part hi hy hop j hj).toMember
  obtain ⟨w, hw, -⟩ := hmember.fits
  rcases element_cases hw with ⟨G, -, hgate⟩ | ⟨-, hleaf⟩
  · cases hgate.symm.trans helement
  · obtain rfl := Element.leaf.inj (hleaf.symm.trans helement)
    exact hs.proper j w hmember.kept hw

/-- A circuit has the same structure in two stores: the same stands in it and in every gate in it. -/
structure SameStructure (s u : Store) (c : CircuitId) : Prop where
  circuit : ∃ x data, s.circuit? c = some x ∧ u.circuit? c = some { x with data } ∧
    data.map u.element = x.data.map s.element
  face : ∀ i F, s.Within c i → s.face i = some F → u.face i = some F

theorem SameStructure.agree {u : Store} (h : s.SameStructure u c) (hs : s.Sound lib lost loose)
    (hu : u.Sound lib lost loose) : s.Agree u c where
  closed := hs.inside_lt
  closed' := hu.inside_lt
  home i x hi hx := by
    obtain ⟨y, hy, hc, -⟩ := (hs.member_of_within hi).fits
    exact Option.some.inj (hx.symm.trans hy) ▸ hc
  face := h.face
  circuit := by
    obtain ⟨x, data, hx, hu, hdata⟩ := h.circuit
    exact ⟨x, _, hx, hu, rfl, rfl, hdata.symm⟩
  data x hx i hi := (hs.data c x hx i hi).known.2
  data' x hx i hi := (hu.data c x hx i hi).known.2

end Store

namespace Action

/-- Inverting twice restores a circuit and all gates in it. -/
theorem inverseCircuit_twice (hlib : lib.IsRegular) (hinv : lib.IsInvolutive) (hs : s.Sound lib lost loose)
    (hx : s.circuit? c = some x)
    (hn : ∀ i ∈ x.data, s.Nests (Instruction.IsInvertible lib) s.instructions.size (s.element i)) :
    ∃ t u data, (inverseCircuit c).Returns s () t ∧ (inverseCircuit c).Returns t () u ∧
      u.Sound lib lost loose ∧ s.instructions.size ≤ u.instructions.size ∧
      u.circuit? c = some { x with data } ∧ data.map u.element = x.data.map s.element ∧
      ∀ i F, i ∉ lost → s.face i = some F → u.face i = some F := by
  have hnunitary : ∀ i ∈ x.data, s.Nests Instruction.IsUnitary s.instructions.size (s.element i) := fun i hi =>
    (hn i hi).imp fun _ h => h.unitary
  obtain ⟨_, t, hreturns, data, ht, hst, hflips, hdata, hxt⟩ :=
    (ends_inverseCircuit hlib hinv.hasInverses hs hx hnunitary).returns
  have hnt : ∀ i ∈ data, t.Nests Instruction.IsUnitary t.instructions.size (t.element i) := fun i hi =>
    (hflips.nests_data (fun _ h => h.inverted) hnunitary hdata i hi).mono hst.size_le
  obtain ⟨_, u, hreturns', data', hu, htu, hflips', hdata', hxu⟩ :=
    (ends_inverseCircuit hlib hinv.hasInverses ht hxt hnt).returns
  refine ⟨t, u, data', hreturns, hreturns', hu, hst.size_le.trans htu.size_le, hxu, ?_, fun i F hi hF => ?_⟩
  · calc data'.map u.element
      _ = (data.map t.element).reverse.map (Element.inverted lib) := by
        rw [hdata', ← map_reverse, map_map]
        rfl
      _ = x.data.map fun i => ((s.element i).inverted lib).inverted lib := by
        rw [hdata, ← map_reverse, reverse_reverse, map_map]
        rfl
      _ = x.data.map s.element := map_congr_left fun i hi => Store.inverted_inverted hinv (hn i hi)
  · have hcount : (t.placesAt t.instructions.size c).count i = (s.placesAt s.instructions.size c).count i := by
      rw [← Store.placesAt_eq hx hn hst.size_le, Store.placesAt_of_some hxt, Store.placesAt_of_some hx]
      exact (hflips.perm_places hdata).count_eq i
    rw [(hflips.trans hflips').gate i F hF, hcount, Face.flip_iterate_even hinv (Store.face_isProper hs hi hF)]

/-- Inverting a circuit twice restores it, however its gates are shared, and with it its text and its program. -/
theorem inverseCircuit_involutive {handed : List InstructionId} (hs : s.Reachable .packaged handed)
    (hc : c < s.circuits.size) (hnested : s.IsNested c) (hunitary : s.IsUnitary c) :
    ∃ t u, (inverseCircuit c).Returns s () t ∧ (inverseCircuit c).Returns t () u ∧ s.SameStructure u c ∧
      ((circuitText c).outcome u).1 = ((circuitText c).outcome s).1 ∧
      ((toProgram c).outcome u).1 = ((toProgram c).outcome s).1 := by
  obtain ⟨lost, hsound, -⟩ := hs.exists_sound Library.isRegular_packaged
  obtain ⟨x, hx⟩ : ∃ x, s.circuit? c = some x := ⟨_, Array.getElem?_eq_getElem hc⟩
  have hn := Store.nests_invertible hsound hnested hunitary hx
  obtain ⟨t, u, data, hst, htu, hu, hsize, hxu, hdata, hfaces⟩ :=
    inverseCircuit_twice Library.isRegular_packaged Library.isInvolutive_packaged hsound hx hn
  have hsame : s.SameStructure u c :=
    ⟨⟨x, data, hx, hxu, hdata⟩, fun i F hi hF => hfaces i F (hsound.member_of_within hi).kept hF⟩
  have hagree := hsame.agree hsound hu
  have hnests : ∀ y, s.circuit? c = some y → ∀ i ∈ y.data, s.Nests _ s.instructions.size (s.element i) := fun y hy =>
    Option.some.inj (hx.symm.trans hy) ▸ hn
  exact ⟨t, u, hst, htu, hsame, (related_circuitText hagree hsize hnests).result_eq,
    (related_toProgram hagree hsize hnests).result_eq⟩

/-- A circuit that holds a gate twice, and once more inside another gate. -/
def sharingCalls : List Call :=
  let b := Bit.single
  [.newCircuit none [.register b.register], .newComposite 0 (.datum (.text "g")) [.bit b] (.ok []),
    .applyGate (.gate 0) "s" [.bit b] (.ok []), .newComposite 0 (.datum (.text "f")) [.bit b] (.ok []),
    .attach (.gate 2) 0, .applyGate (.gate 2) "t" [.bit b] (.ok []), .attach (.circuit 0) 0,
    .attach (.circuit 0) 2, .attach (.circuit 0) 0]

theorem inverseCircuit_involutive_sharing :
    let s := (sharingCalls.foldl (Store.next .packaged) ({}, [])).1
    s.IsNested 0 ∧ s.IsUnitary 0 ∧
      ∃ t u, (inverseCircuit 0).Returns s () t ∧ (inverseCircuit 0).Returns t () u ∧ s.SameStructure u 0 ∧
        ((circuitText 0).outcome u).1 = ((circuitText 0).outcome s).1 ∧
        ((toProgram 0).outcome u).1 = ((toProgram 0).outcome s).1 := by
  have hnested := Store.isNested_of_flattened (s := (sharingCalls.foldl (Store.next .packaged) ({}, [])).1) (c := 0)
    (by decide +kernel)
  have hunitary := Store.isUnitary_of_flattened (s := (sharingCalls.foldl (Store.next .packaged) ({}, [])).1) (c := 0)
    (by decide +kernel)
  have hreach := Store.reachable_foldl .packaged sharingCalls (by decide +kernel)
  exact ⟨hnested, hunitary, inverseCircuit_involutive hreach (by decide +kernel) hnested hunitary⟩

end Action

end QasmCircuit
