import QasmCircuit.Proofs.Circuit.Reachable
import QasmCircuit.Proofs.Library.Links
import QasmCircuit.Proofs.Program.Parameter

/-!
# Well-formed circuits

Whatever is done to the circuits of an accepted library, and whether it fails or not, every instruction in a circuit
or in the body of a gate acts on declared registers, has what its family asks for, and has no modifier that it may not
have; and what stands in a body stays on the arguments of its gate.

> `Store.Reachable.isWellFormed`: all stores within reach are well-formed.
-/

namespace QasmCircuit

/-- An instruction that may stand in a circuit with some registers. -/
structure Instruction.IsWellFormed (lib : Library) (regs : List Register) (x : Instruction) : Prop where
  qubits : ∀ b ∈ x.splitArgs.1, b.IsIn regs .quantum
  clbits : ∀ b ∈ x.splitArgs.2, b.IsIn regs .classical
  distinct : ((x.controlBits ++ x.splitArgs.1).map Bit.key).Nodup
  controls : ∀ r ∈ x.controls, r ∈ regs ∧ r.kind = .quantum
  condition : ∀ r v, x.condition = some (r, v) → r ∈ regs ∧ r.kind = .classical ∧ 0 ≤ v ∧ v < 2 ^ r.size
  atomic : ∀ f, x.operation = .atomic f → lib.find? f.name = some f ∧ x.params.length = f.params.length ∧
    (x.args.length : Int) = f.arity ∧ ∀ p ∈ x.params, p.isFinite
  barrier : x.operation = .barrier → x.condition = none ∧ x.controls = []
  measure : x.operation = .measure → x.controls = []

/-- All instructions in circuits, and in the bodies of gates that can be got at, are well-formed and belong to the
circuit that they stand in. What stands in a body is no measurement, and acts on arguments of the gate. -/
structure Store.IsWellFormed (lib : Library) (handed : List InstructionId) (s : Store) : Prop where
  data : ∀ c x, s.circuit? c = some x → ∀ i ∈ x.data, ∃ y, s.instruction? i = some y ∧ y.circuit = c ∧
    y.IsWellFormed lib x.registers
  body : ∀ g x, s.InReach handed g → s.instruction? g = some x → ∀ i ∈ x.inside, ∃ y c, s.instruction? i = some y ∧
    y.circuit = x.circuit ∧ s.circuit? x.circuit = some c ∧ y.IsWellFormed lib c.registers ∧
    y.operation ≠ .measure ∧ ∀ b ∈ y.args, b.key ∈ x.args.map Bit.key

variable {lib : Library} {s : Store} {handed : List InstructionId}

theorem Register.fits_iff_lt {r : Register} {v : Int} : r.fits v ↔ 0 ≤ v ∧ v < 2 ^ r.size := by
  rw [Register.fits_iff]
  refine and_congr_right fun hv => ?_
  rw [← Int.toNat_of_nonneg hv, Int.toNat_natCast, ← Nat.cast_ofNat (R := Int), ← Nat.cast_pow, Nat.cast_lt]
  rfl

/-- What fits its circuit and is proper is well-formed. -/
theorem Instruction.isWellFormed_of_fits {regs : List Register} {x : Instruction} (hfits : x.Fits regs)
    (hproper : x.IsProper lib) : x.IsWellFormed lib regs where
  qubits := hfits.qubits
  clbits := hfits.clbits
  distinct := Bit.distinct_iff.mp hfits.distinct
  controls := hfits.controls
  condition r v hc := by
    obtain ⟨hr, hkind, hv⟩ := hfits.condition r v hc
    exact ⟨hr, hkind, Register.fits_iff_lt.mp hv⟩
  atomic f hop := by
    rw [Instruction.IsProper, hop] at hproper
    exact ⟨hproper.1, hproper.2.1, hproper.2.2.2.1, hproper.2.2.1⟩
  barrier hop := by
    rw [Instruction.IsProper, hop] at hproper
    exact ⟨hproper.2.2.1, hproper.2.1⟩
  measure hop := by
    rw [Instruction.IsProper, hop] at hproper
    exact hproper.2.1

namespace Store

theorem Sound.isWellFormed_of_member {lost loose : Set InstructionId} (hs : s.Sound lib lost loose) {c : CircuitId}
    {i : InstructionId} (hi : s.Member lost loose c i) :
    ∃ y x, s.instruction? i = some y ∧ y.circuit = c ∧ s.circuit? c = some x ∧ y.IsWellFormed lib x.registers := by
  obtain ⟨y, hy, rfl, x, hx, hfits⟩ := hi.fits
  exact ⟨y, x, hy, rfl, hx, Instruction.isWellFormed_of_fits hfits (hs.proper i y hi.kept hy)⟩

/-- Whatever is done with an accepted library, all that can be got at is well-formed. -/
theorem Reachable.isWellFormed {d : Datum} (hlib : Library.ofDatum d = .ok lib) (hs : s.Reachable lib handed) :
    s.IsWellFormed lib handed := by
  obtain ⟨lost, hsound, hknown⟩ := hs.exists_sound (Library.isRegular_of_ofDatum hlib)
  refine ⟨fun c x hx i hi => ?_, fun g x hg hx i hi => ?_⟩
  · obtain ⟨y, x', hy, hc, hx', hwell⟩ := hsound.isWellFormed_of_member (hsound.data c x hx i hi)
    cases hx.symm.trans hx'
    exact ⟨y, hy, hc, hwell⟩
  · have hpart := hsound.body g x (hknown g hg).1 hx i hi
    obtain ⟨y, c, hy, hcircuit, hc, hwell⟩ := hsound.isWellFormed_of_member hpart.toMember
    obtain ⟨z, hz, hmeasure, hargs⟩ := hpart.scope
    cases hy.symm.trans hz
    refine ⟨y, c, hy, hcircuit, hc, hwell, fun hop => ?_, fun b hb => Bit.among_iff.mp (hargs b hb)⟩
    rw [Instruction.isMeasure, hop] at hmeasure
    cases hmeasure

end Store

/-- The description of a library in which a gate can be controlled and its inverse cannot. -/
def Datum.unevenLibrary : Datum :=
  .mapping [(.text "families", .mapping [
    (.text "s", .mapping [(.text "arity", .int 1), (.text "inverse", .mapping [(.text "name", .text "sdg")]),
      (.text "controlled", .text "cs")]),
    (.text "sdg", .mapping [(.text "arity", .int 1), (.text "inverse", .mapping [(.text "name", .text "s")])]),
    (.text "cs", .mapping [(.text "arity", .int 2)])])]

def Library.uneven : Library where
  families :=
    [⟨"s", [], 1, "sdg", [], some "cs"⟩, ⟨"sdg", [], 1, "s", [], none⟩, ⟨"cs", [], 2, "cs", [], none⟩]

theorem Library.ofDatum_unevenLibrary : Library.ofDatum .unevenLibrary = .ok .uneven :=
  Outcome.toOption_eq_some.mp (by decide +kernel)

/-- A gate inside another one is controlled, conditioned and inverted. Then calls fail: a measurement in a gate, a
condition on a quantum register, and all that would apply the inverse again with its control. -/
def mixedCalls : List Call :=
  let b := Bit.single
  let q := Argument.register b.register
  let r := Argument.register .lead
  let c := Argument.register .flag
  [.newCircuit none [q, r, c], .newComposite 0 (.datum (.text "g")) [.bit b] (.ok []),
    .applyGate (.gate 0) "s" [q] (.ok []), .newComposite 0 (.datum (.text "f")) [.bit b] (.ok []),
    .attach (.gate 2) 0, .callHelper (.gate 2) "barrier" [.bit b], .attach (.circuit 0) 2, .control 2 [r],
    .condition 2 c (.datum (.int 1)), .callHelper (.circuit 0) "measure" [q, c], .inverseAll [1, 2],
    .callHelper (.gate 0) "measure" [q, c], .condition 2 q (.datum (.int 0)), .newCircuit none [q],
    .extend 1 0, .reapply 2 (.circuit 1), .concat 1 0]

theorem Store.Reachable.isWellFormed_uneven :
    let p := mixedCalls.foldl (Store.next .uneven) ({}, [])
    Library.ofDatum .unevenLibrary = .ok .uneven ∧ p.1.Reachable .uneven p.2 ∧ p.1.IsWellFormed .uneven p.2 := by
  have hreach := Store.reachable_foldl .uneven mixedCalls (by decide +kernel)
  exact ⟨Library.ofDatum_unevenLibrary, hreach, hreach.isWellFormed Library.ofDatum_unevenLibrary⟩

end QasmCircuit
