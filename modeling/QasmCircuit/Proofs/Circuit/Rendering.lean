import QasmCircuit.Proofs.Circuit.Lines
import QasmCircuit.Proofs.Circuit.WellFormed

/-!
# Which circuits have a text

A gate is written as the gate of the library that has its controls among its qubits. Controls are only put on a gate
that has such a form; but an inverse takes over the controls of the gate, and a library may have no form for it. The
value of a condition is only written with so many digits (`Text.digitLimit`), but a register may hold larger ones. So a
circuit has a text if and only if all its gates have forms with their controls, and no value of a condition has too many
digits. Gates have such forms wherever inverses can be controlled.

> `Action.circuitText_returns_iff`: which circuits have a text.
-/

namespace QasmCircuit

open Outcome Text Store

namespace Action

variable {lib : Library} {lost loose : Set InstructionId} {s : Store} {i : InstructionId} {x : Instruction} {n N : Nat}
  {xs : List Instruction}

/-- Whatever is written has a form with its controls, down to the last level. -/
theorem reads_instructionText (hs : s.Sound lib lost loose) (N : Nat) (i : InstructionId) :
    (instructionText N i).Reads s fun _ => ∀ n xs, s.expand n (s.element i) = some xs → ∀ x ∈ xs, x.HasForm lib := by
  induction N generalizing i with
  | zero => exact reads_throw
  | succ N ih =>
    refine reads_instruction.bind fun x hx => ?_
    -- Without a body there is nothing else below the place.
    have hleaf : x.isComposite = false → x.HasForm lib →
        ∀ n xs, s.expand n (s.element i) = some xs → ∀ y ∈ xs, y.HasForm lib := by
      intro hleaf hform n xs h
      rw [element_of_leaf hx hleaf, expand_leaf] at h
      cases h
      exact List.forall_mem_singleton.mpr hform
    cases hop : x.operation with
    | atomic f =>
      have hwritten : (writtenName x f).Reads s fun _ => x.HasForm lib := by
        refine reads_circuit.bind fun d hd => reads_lift.bind fun g hg => reads_pure fun f' hop' => ?_
        cases hop.symm.trans hop'
        rw [controlledFamily_eq_ok, hs.library _ d hd] at hg
        rw [hg]
        rfl
      refine hwritten.bind fun name hform => reads_lift.bind fun text _ => ?_
      exact reads_lift.bind fun _ _ => reads_pure (hleaf (by rw [Instruction.isComposite, hop]) hform)
    | composite name body flag =>
      refine (Reads.mapM fun j _ => ih j).bind fun texts htexts => reads_pure fun n xs h => ?_
      have hF := face_of_composite hx hop
      rw [element_of_composite hx hop] at h
      cases n with
      | zero => cases h
      | succ n =>
        rw [expand_gate hF] at h
        obtain ⟨parts, hparts, rfl⟩ := expandAll_eq_some.mp h
        intro y hy
        obtain ⟨part, hpart, hy⟩ := List.mem_flatten.mp hy
        obtain ⟨e, he, hexpand⟩ := exists_of_forall₂ hparts part hpart
        obtain ⟨j, hj, rfl⟩ := List.mem_map.mp he
        obtain ⟨_, -, hj⟩ := exists_of_forall₂ htexts.flip j hj
        exact hj n part hexpand y hy
    | barrier => exact reads_pure (hleaf (by rw [Instruction.isComposite, hop]) fun f hf => by cases hop.symm.trans hf)
    | measure =>
      refine reads_lift.bind fun _ _ => reads_pure (hleaf (by rw [Instruction.isComposite, hop]) fun f hf => ?_)
      cases hop.symm.trans hf

/-- The gates of a circuit that is written have forms with their controls. -/
theorem reads_circuitText (hs : s.Sound lib lost loose) {c : CircuitId} (h : s.flattened c = some xs) :
    (circuitText c).Reads s fun _ => ∀ x ∈ xs, x.HasForm lib := by
  refine reads_circuit.bind fun d hd => reads_depth.bind fun N _ => ?_
  refine (Reads.mapM fun i _ => reads_instructionText hs N i).bind fun texts htexts => reads_pure ?_
  rw [flattened_of_some hd] at h
  obtain ⟨parts, hparts, rfl⟩ := expandAll_eq_some.mp h
  intro y hy
  obtain ⟨part, hpart, hy⟩ := List.mem_flatten.mp hy
  obtain ⟨e, he, hexpand⟩ := exists_of_forall₂ hparts part hpart
  obtain ⟨i, hi, rfl⟩ := List.mem_map.mp he
  obtain ⟨_, -, hi⟩ := exists_of_forall₂ htexts.flip i hi
  exact hi _ part hexpand y hy

/-- A circuit in which no gate contains itself has a text if and only if its gates have forms with their controls, and
the values of its conditions do not have too many digits. Where inverses can be controlled, gates have such forms. -/
theorem circuitText_returns_iff {d : Datum} (hlib : Library.ofDatum d = .ok lib) {handed : List InstructionId}
    (hs : s.Reachable lib handed) {c : CircuitId} (hc : c < s.circuits.size) (hnested : s.IsNested c) :
    ∃ xs, s.flattened c = some xs ∧
      ((∃ text, (circuitText c).Returns s text s) ↔ ∀ x ∈ xs, x.HasForm lib ∧ x.isShort) ∧
      (lib.IsAligned → ((∃ text, (circuitText c).Returns s text s) ↔ ∀ x ∈ xs, x.isShort)) := by
  obtain ⟨lost, hsound, -⟩ := hs.exists_sound (Library.isRegular_of_ofDatum hlib)
  obtain ⟨x, hx⟩ : ∃ x, s.circuit? c = some x := ⟨_, Array.getElem?_eq_getElem hc⟩
  obtain ⟨xs, hxs, -⟩ := Store.flattened_of_isNested hsound hnested hx
  have htext : (∃ text, (circuitText c).Returns s text s) ↔ ∀ y ∈ xs, y.HasForm lib ∧ y.isShort := by
    refine ⟨?_, fun h => ⟨_, (writes_circuitText hsound hx hxs fun y hy => (h y hy).1).returns fun y hy => (h y hy).2⟩⟩
    rintro ⟨text, hreturns⟩ y hy
    have hform := (hreturns.ends.mp (reads_circuitText hsound hxs)).2
    exact ⟨hform y hy, (hreturns.ends.mp (writes_circuitText hsound hx hxs hform)).2.1 y hy⟩
  refine ⟨xs, hxs, htext, fun haligned => htext.trans (forall₂_congr fun y hy => ?_)⟩
  exact and_iff_right (Store.hasForm_of_flattened haligned hsound hxs y hy)

/-- The description of a library of rotations. The inverse of a rotation is one by the opposite angle. -/
def rotationData : Datum :=
  .mapping [(.text "families", .mapping [
    (.text "rx", .mapping [(.text "params", .list [.text "theta"]), (.text "arity", .int 1),
      (.text "inverse", .mapping [(.text "params", .list [.text "-theta"])]), (.text "controlled", .text "crx")]),
    (.text "crx", .mapping [(.text "params", .list [.text "theta"]), (.text "arity", .int 2),
      (.text "inverse", .mapping [(.text "params", .list [.text "-theta"])])])])]

def rotations : Library := ⟨[Library.rotation "rx" "theta" 1 (some "crx"), Library.rotation "crx" "theta" 2 none]⟩

theorem isAligned_rotations : rotations.IsAligned := by
  refine Library.isAligned_of_controlled fun f g hf hg => ?_
  have hmem := Library.mem_of_find? hf
  rw [rotations, List.mem_pair] at hmem
  -- Each family is its own inverse, but for the angle.
  rcases hmem with rfl | rfl
  · cases hg
    rfl
  · cases hg
    rfl

/-- A gate of a circuit is controlled, and the circuit is inverted. -/
def controlledCalls (name : String) (params : List Argument) : List Call :=
  [.newCircuit none [.register Bit.single.register, .register .lead],
    .applyGate (.circuit 0) name [.bit .single] (.ok params), .control 0 [.register .lead], .inverseCircuit 0]

theorem circuitText_returns_iff_rotations :
    let p := (controlledCalls "rx" [.datum (.int 2)]).foldl (Store.next rotations) ({}, [])
    Library.ofDatum rotationData = .ok rotations ∧ rotations.IsAligned ∧ p.1.Reachable rotations p.2 ∧
      p.1.IsNested 0 ∧ ∃ text, (circuitText 0).Returns p.1 text p.1 := by
  have hlib : Library.ofDatum rotationData = .ok rotations := toOption_eq_some.mp (by decide +kernel)
  have hreach := Store.reachable_foldl rotations (controlledCalls "rx" [.datum (.int 2)]) (by decide +kernel)
  have hnested := Store.isNested_of_flattened (c := 0) (s := ((controlledCalls "rx" [.datum (.int 2)]).foldl
    (Store.next rotations) ({}, [])).1) (by decide +kernel)
  obtain ⟨xs, hxs, -, htext⟩ := circuitText_returns_iff hlib hreach (by decide +kernel) hnested
  have hshort : ((((controlledCalls "rx" [.datum (.int 2)]).foldl (Store.next rotations) ({}, [])).1.flattened
    0).all fun xs => xs.all Instruction.isShort) = true := by decide +kernel
  rw [hxs] at hshort
  exact ⟨hlib, isAligned_rotations, hreach, hnested, (htext isAligned_rotations).mpr (List.all_eq_true.mp hshort)⟩

/-- All calls return, and yet the circuit has no text: the inverse of the gate cannot be controlled. -/
theorem circuitText_fails_uneven :
    let p := (controlledCalls "s" []).foldl (Store.next .uneven) ({}, [])
    Library.ofDatum .unevenLibrary = .ok .uneven ∧
      (((controlledCalls "s" []).mapM (Call.run .uneven)).outcome {}).1.toOption.isSome = true ∧
      p.1.Reachable .uneven p.2 ∧ p.1.IsNested 0 ∧ ((circuitText 0).outcome p.1).1.toOption = none :=
  ⟨Library.ofDatum_unevenLibrary, by decide +kernel,
    Store.reachable_foldl .uneven (controlledCalls "s" []) (by decide +kernel),
    Store.isNested_of_flattened (by decide +kernel), by decide +kernel⟩

end Action

end QasmCircuit
