import QasmCircuit.Proofs.Circuit.Sharing
import QasmCircuit.Proofs.Lowering.Lower

/-!
# Inverting circuits without shared gates

Where every gate stands at one place, inverting a circuit flips each gate once, and what results is the inverse
program. All circuits that were read from a text are of this kind, since every call in a text makes a gate of its own.
-/

namespace QasmCircuit

open Outcome

namespace Store

variable {s : Store} {c : CircuitId}

/-- Gates that stand at one place each, to as many levels as there are, do so to any number of levels. -/
theorem nodup_placesAt (hflat : (s.flattened c).isSome) (h : (s.placesAt s.instructions.size c).Nodup) (n : Nat) :
    (s.placesAt n c).Nodup := by
  obtain ⟨xs, hxs⟩ := Option.isSome_iff_exists.mp hflat
  obtain ⟨x, hx, hexpand⟩ := Option.bind_eq_some_iff.mp hxs
  rw [placesAt_of_some hx] at h ⊢
  have hunshared : Unshared 0 s s.instructions.size x.data xs := ⟨hexpand, h, fun _ _ _ _ => Nat.zero_le _⟩
  exact hunshared.nodup_gatesAt n

end Store

namespace Action

/-- Inverting a circuit whose gates stand at one place each reverses it and inverts each of its instructions. The
registers stay, and every gate has its flag turned. Circuits from texts are such circuits. -/
theorem inverseCircuit_reverses :
    (∀ (s : Store) (handed : List InstructionId) (c : CircuitId) (x : Circuit), s.Reachable .packaged handed →
      s.circuit? c = some x → s.IsUnitary c → (∀ n, (s.placesAt n c).Nodup) →
      ∃ t data xs ys, (inverseCircuit c).Returns s () t ∧ t.circuit? c = some { x with data } ∧
        s.flattened c = some xs ∧ t.flattened c = some ys ∧
        List.Forall₂ (Instruction.IsInverse .packaged) xs.reverse ys ∧
        ∀ i z name body flag, s.Within c i → s.instruction? i = some z → z.operation = .composite name body flag →
          ∃ body', t.instruction? i = some { z with operation := .composite name body' (!flag) }) ∧
    ∀ (s : Store) (text : String),
      (ofText .packaged text).Ends s (fun c t => ∀ n, (t.placesAt n c).Nodup) fun _ _ => True := by
  refine ⟨fun s handed c x hs hx hunitary honce => ?_, fun s text => ?_⟩
  · obtain ⟨lost, hsound, -⟩ := hs.exists_sound Library.isRegular_packaged
    have hinv := Library.isInvolutive_packaged
    have hnested := Store.isNested_of_nodup hsound honce
    obtain ⟨xs, hxs, hall⟩ := Store.exists_flattened hsound hnested hunitary hx
    have hnests := Store.nests_invertible hsound hnested hunitary hx
    obtain ⟨t, data, hst, -, hxt, hfaces, hreversed⟩ := returns_inverseCircuit Library.isRegular_packaged hinv hsound hx
      hnests hxs
    have hcount : ∀ i ∈ s.placesAt s.instructions.size c, (s.placesAt s.instructions.size c).count i = 1 :=
      fun i hi => List.count_eq_one_of_mem (honce _) hi
    have hodd : ∀ i ∈ s.placesAt s.instructions.size c, Odd ((s.placesAt s.instructions.size c).count i) := by
      intro i hi
      rw [hcount i hi]
      exact odd_one
    refine ⟨t, data, xs, _, hst, hxt, hxs, hreversed hodd, forall₂_isInverse hinv hall, ?_⟩
    intro i z name body flag hi hz hop
    refine @Store.instruction?_of_flip .packaged s t i z name body flag hz hop fun F hF => ?_
    rw [hfaces i F hF, hcount i (Store.mem_placesAt hx hnests hi hF), Function.iterate_one]
  · refine (ends_ofText Library.packaged_hasPrimitives text).imp (fun c t ht n => ?_) fun _ _ h => h
    obtain ⟨p, x, xs, -, hlowered⟩ := ht
    exact hlowered.nodup_placesAt n

/-- A circuit from a text in which a declared gate under a guard calls another one. -/
def nestedCalls : List Call :=
  [.ofText ("OPENQASM 2.0; include \"qelib1.inc\"; gate f(t) a,b\x7brx(t/4) a; barrier a; cx a,b;\x7d " ++
    "gate g a,b\x7bf(2) b,a; s a;\x7d qreg q[2]; creg c[2]; if(c==2) g q[1],q[0]; u3(1,2,3) q; barrier q;")]

theorem inverseCircuit_reverses_nested :
    let s := (nestedCalls.foldl (Store.next .packaged) ({}, [])).1
    s.IsUnitary 0 ∧ (∀ n, (s.placesAt n 0).Nodup) ∧ ∃ x, s.circuit? 0 = some x ∧
      ∃ t data xs ys, (inverseCircuit 0).Returns s () t ∧ t.circuit? 0 = some { x with data } ∧
        s.flattened 0 = some xs ∧ t.flattened 0 = some ys ∧ xs.length = 7 ∧
        List.Forall₂ (Instruction.IsInverse .packaged) xs.reverse ys ∧
        ∀ i z name body flag, s.Within 0 i → s.instruction? i = some z → z.operation = .composite name body flag →
          ∃ body', t.instruction? i = some { z with operation := .composite name body' (!flag) } := by
  intro s
  have hreach := Store.reachable_foldl .packaged nestedCalls (by decide +kernel)
  have hunitary : s.IsUnitary 0 := Store.isUnitary_of_flattened (by decide +kernel)
  have honce : ∀ n, (s.placesAt n 0).Nodup := Store.nodup_placesAt (by decide +kernel) (by decide +kernel)
  have hlength : (s.flattened 0).map List.length = some 7 := by decide +kernel
  obtain ⟨x, hx⟩ : ∃ x, s.circuit? 0 = some x := Option.isSome_iff_exists.mp (by decide +kernel)
  obtain ⟨t, data, xs, ys, hst, hxt, hxs, hys, hinverse, hflags⟩ :=
    inverseCircuit_reverses.1 s _ 0 x hreach hx hunitary honce
  rw [hxs] at hlength
  exact ⟨hunitary, honce, x, hx, t, data, xs, ys, hst, hxt, hxs, hys, Option.some.inj hlength, hinverse, hflags⟩

end Action

end QasmCircuit
