import QasmCircuit.Proofs.Circuit.Fresh
import QasmCircuit.Proofs.Circuit.Lines

/-!
# Circuits without shared gates

Inverting a circuit flips a gate once for each of its places, so that a gate at two places is left as it was. Where
every gate is replaced by a copy of its own, all are flipped once and the inverse program results; the circuit with
the shared gates gives the same program if each of its gates stands at an odd number of places.

> `Action.ends_unshare`: a circuit with copies for its gates is the same program, and shares no gate.
-/

namespace QasmCircuit

open Outcome Relation Store

namespace Action

variable {lib : Library} {lost loose : Set InstructionId} {s t : Store} {c : CircuitId} {i : InstructionId} {n N : Nat}
  {is : List InstructionId} {xs : List Instruction}

/-- A step puts something in the place of an instruction that shares no gate with what was there and is the same once
it is flattened. -/
def Replaces (lib : Library) (lost loose : Set InstructionId) (n : Nat) (step : InstructionId → Action InstructionId) :
    Prop :=
  ∀ (s : Store) (c : CircuitId) (i : InstructionId) (xs : List Instruction), s.Sound lib lost loose →
    s.Member lost loose c i → s.expand n (s.element i) = some xs →
    (step i).Attains s (fun j t => t.Sound lib lost loose ∧ s.Grows loose t ∧ t.Member lost loose c j ∧
      t.circuits = s.circuits ∧ s.Adds t ∧ Unshared s.instructions.size t n [j] xs)

theorem Replaces.mapM {step : InstructionId → Action InstructionId} (hstep : Replaces lib lost loose n step)
    (hs : s.Sound lib lost loose) (his : ∀ i ∈ is, s.Member lost loose c i)
    (h : s.expandAll n (is.map s.element) = some xs) :
    (is.mapM step).Attains s fun js t => t.Sound lib lost loose ∧ s.Grows loose t ∧
      (∀ j ∈ js, t.Member lost loose c j) ∧ t.circuits = s.circuits ∧ s.Adds t ∧
      Unshared s.instructions.size t n js xs := by
  refine Ends.map (ends_mapM (I := fun done js t => t.Sound lib lost loose ∧ s.Grows loose t ∧
    (∀ j ∈ js, t.Member lost loose c j) ∧ t.circuits = s.circuits ∧ s.Adds t ∧
    ∃ ys, s.expandAll n (done.map s.element) = some ys ∧ Unshared s.instructions.size t n js ys) ?_
    ⟨hs, .refl s, List.forall_mem_nil _, rfl, .refl s, [], rfl, .nil _ _ _⟩) ?_
  · rintro done i rest js t hsplit ⟨ht, hst, hjs, hcircuits, hadds, ys, hys, hunshared⟩
    have hi : i ∈ is := by
      rw [hsplit]
      exact List.mem_append_right done List.mem_cons_self
    have hknown := (his i hi).known
    obtain ⟨part, hpart, -⟩ := forall_of_expandAll (P := fun _ => True) h (fun _ _ => trivial) _
      (List.mem_map_of_mem hi)
    have hsame := hadds.sameBelow hs hknown.2
    refine (hstep t c i part ht ((his i hi).mono hst) ((hsame.expand_eq n).trans hpart)).map ?_
    rintro j u ⟨hu, htu, hj, hcircuits', hadds', hnew⟩
    have hsame' : ∀ j ∈ js, t.SameBelow u j := fun j hj => hadds'.sameBelow ht (hjs j hj).known.2
    refine ⟨hu, hst.trans htu, ?_, hcircuits'.trans hcircuits, hadds.trans hadds', ys ++ part, ?_, ?_⟩
    · exact forall_mem_concat (fun k hk => (hjs k hk).mono htu) hj
    · rw [List.map_append, List.map_singleton]
      refine expandAll_append hys (expandAll_eq_some.mpr ⟨[part], .cons hpart .nil, List.append_nil part⟩)
    · refine (hunshared.congr hsame').append hnew hadds.size_le fun k hk l hkl => ?_
      exact ht.reach_lt (hjs k hk).known.2 ((hsame' k hk).reach hkl)
  · rintro js t ⟨ht, hst, hjs, hcircuits, hadds, ys, hys, hunshared⟩
    rw [Option.some.inj (h.symm.trans hys)]
    exact ⟨ht, hst, hjs, hcircuits, hadds, hunshared⟩

/-- Soundness of copies is known; what is left is what they are. -/
theorem ends_copy_sound {Q : InstructionId → Store → Prop} (hs : s.Sound lib lost loose)
    (hi : s.Member lost loose c i) (h : (copy n i).Attains s Q) :
    (copy n i).Attains s fun j t => t.Sound lib lost loose ∧ s.Grows loose t ∧ t.Member lost loose c j ∧ Q j t := by
  refine (Ends.and (safe_copy n hs.toOrderly hi.kept) h).imp ?_ fun _ _ h => h.2
  rintro j t ⟨⟨ht, hst, hj⟩, hq⟩
  exact ⟨⟨ht, hs.regular⟩, hst, hj.member c hi, hq⟩

theorem ends_copy_leaf {x : Instruction} (hx : s.instruction? i = some x) (hleaf : x.isComposite = false) :
    (copy (N + 1) i).Attains s fun j t => t.circuits = s.circuits ∧ s.Adds t ∧
      Unshared s.instructions.size t n [j] [x] := by
  rw [copy]
  refine ends_bind.mpr ((ends_instruction_of_some hx).mpr ?_)
  split
  · next hop => exact absurd_leaf hleaf hop
  · exact ends_modifyGet.mpr ⟨rfl, s.adds_push x, .leaf (s.instruction?_push_self x) hleaf _ _⟩

/-- A copy shares no gate with what it was made from. -/
theorem replaces_copy (hN : n ≤ N) : Replaces lib lost loose n (copy (N + 1)) := by
  induction n generalizing N with
  | zero =>
    intro s c i xs hs hi h
    refine ends_copy_sound hs hi ?_
    obtain ⟨x, hx, -⟩ := hi.fits
    rcases element_cases hx with ⟨F, -, hgate⟩ | ⟨hleaf, helement⟩
    · rw [hgate] at h
      cases h
    · rw [helement] at h
      cases h
      exact ends_copy_leaf hx hleaf
  | succ n ih =>
    intro s c i xs hs hi h
    refine ends_copy_sound hs hi ?_
    obtain ⟨x, hx, -⟩ := hi.fits
    rcases element_cases hx with ⟨F, hF, hgate⟩ | ⟨hleaf, helement⟩
    · obtain ⟨N, rfl⟩ := Nat.exists_eq_add_one.mpr (Nat.zero_lt_of_lt hN)
      obtain ⟨y, name, body, flag, hy, hop, rfl⟩ := exists_of_face hF
      cases hx.symm.trans hy
      rw [hgate, expand_gate hF] at h
      have hbody := fun j (hj : j ∈ body) => (hs.part hi.kept hx hop j hj).toMember
      rw [copy]
      refine ends_bind.mpr ((ends_instruction_of_some hx).mpr ?_)
      rw [hop]
      refine ((ih (Nat.le_of_succ_le_succ hN)).mapM hs hbody h).bind ?_
      rintro body' t ⟨ht, -, hmembers, hcircuits, hadds, hunshared⟩
      refine ends_modifyGet.mpr ⟨hcircuits, hadds.trans (t.adds_push _), ?_⟩
      have hsame : ∀ j ∈ body', t.SameBelow (t.push { x with operation := .composite name body' flag }) j :=
        fun j hj => (t.adds_push _).sameBelow ht (hmembers j hj).known.2
      refine (hunshared.congr hsame).gate (t.instruction?_push_self _) rfl hadds.size_le fun j hj hreach => ?_
      exact Nat.lt_irrefl _ (ht.reach_lt (hmembers j hj).known.2 ((hsame j hj).reach hreach))
    · rw [helement] at h
      cases h
      exact ends_copy_leaf hx hleaf

/-- A copy in the place of a gate with a body. Other instructions are not changed in place and stay. -/
def unshared (n : Nat) (i : InstructionId) : Action InstructionId := do
  match (← instruction i).operation with
  | .composite _ _ _ => copy n i
  | _ => pure i

/-- Puts a copy into every place of a circuit where a gate with a body stands. -/
def unshare (c : CircuitId) : Action Unit := do
  let x ← circuit c
  let n ← depth
  let data ← x.data.mapM (unshared n)
  putCircuit c { x with data }

theorem replaces_unshared (hN : n ≤ N) : Replaces lib lost loose n (unshared (N + 1)) := by
  intro s c i xs hs hi h
  obtain ⟨x, hx, -⟩ := hi.fits
  refine ends_bind.mpr ((ends_instruction_of_some hx).mpr ?_)
  rcases element_cases hx with ⟨F, hF, hgate⟩ | ⟨hleaf, helement⟩
  · obtain ⟨y, name, body, flag, hy, hop, -⟩ := exists_of_face hF
    cases hx.symm.trans hy
    rw [hop]
    exact replaces_copy hN s c i xs hs hi h
  · have hkeep : (pure i : Action InstructionId).Attains s fun j t => t.Sound lib lost loose ∧ s.Grows loose t ∧
        t.Member lost loose c j ∧ t.circuits = s.circuits ∧ s.Adds t ∧
        Unshared s.instructions.size t n [j] xs := by
      rw [helement, expand_leaf] at h
      cases h
      exact ⟨hs, .refl s, hi, rfl, .refl s, .leaf hx hleaf _ _⟩
    split
    · next hop => exact absurd_leaf hleaf hop
    · exact hkeep

/-- A circuit with copies for its gates is the same program, and shares no gate. -/
theorem ends_unshare (hs : s.Sound lib lost loose) {x : Circuit} (hx : s.circuit? c = some x)
    (h : s.flattened c = some xs) : (unshare c).Attains s fun _ t => t.Sound lib lost loose ∧ t.flattened c = some xs ∧
      (∀ m, (t.placesAt m c).Nodup) ∧ ∃ data, t.circuit? c = some { x with data } := by
  rw [flattened_of_some hx] at h
  refine ends_bind.mpr ((ends_circuit_of_some hx).mpr (ends_bind.mpr (ends_depth.mpr ?_)))
  refine ((replaces_unshared (Nat.le_refl _)).mapM hs (hs.data c x hx) h).bind ?_
  rintro data t ⟨ht, -, hmembers, hcircuits, -, hunshared⟩
  have hxt : t.circuit? c = some x := by
    rw [Store.circuit?, hcircuits]
    exact hx
  have hput : (t.putCircuit c { x with data }).Sound lib lost loose :=
    ⟨ht.toOrderly.putCircuit hxt (List.Subset.refl _) rfl (ht.names c x hxt) (ht.short c x hxt) hmembers, ht.regular⟩
  have hcircuit : (t.putCircuit c { x with data }).circuit? c = some { x with data } := by
    rw [circuit?_putCircuit hxt, if_pos rfl]
  have hunshared' : Unshared s.instructions.size (t.putCircuit c { x with data }) s.instructions.size data xs :=
    hunshared.congr fun _ _ _ _ => rfl
  refine ends_modify.mpr ⟨hput, ?_, fun m => ?_, data, hcircuit⟩
  · exact flattened_of_expandAll hput hcircuit hunshared'.expand
  · have hnodup := hunshared'.nodup_gatesAt m
    show ((t.putCircuit c { x with data }).placesAt m c).Nodup
    rw [placesAt_of_some hcircuit]
    exact hnodup

theorem forall₂_isInverse (hinv : lib.IsInvolutive) (h : ∀ x ∈ xs, x.IsInvertible lib) :
    List.Forall₂ (Instruction.IsInverse lib) xs.reverse (xs.reverse.map (Instruction.inverted lib)) := by
  rw [List.forall₂_map_right_iff, List.forall₂_same]
  intro x hx
  have hx := h x (List.mem_reverse.mp hx)
  exact Instruction.isInverse_inverted hinv hx.proper hx.leaf hx.unitary

/-- Inverting a circuit flips every gate once for each of its places. With copies for its gates the inverse program
results, and without them it does if every gate stands at an odd number of places. -/
theorem inverseCircuit_unshare {handed : List InstructionId} (hs : s.Reachable .packaged handed)
    (hc : c < s.circuits.size) (hnested : s.IsNested c) (hunitary : s.IsUnitary c) :
    ∃ t u v xs ys, (inverseCircuit c).Returns s () t ∧ (unshare c).Returns s () u ∧
      (inverseCircuit c).Returns u () v ∧ s.flattened c = some xs ∧ u.flattened c = some xs ∧
      v.flattened c = some ys ∧ List.Forall₂ (Instruction.IsInverse .packaged) xs.reverse ys ∧
      (∀ i F, s.Within c i → s.face i = some F →
        t.face i = some ((Face.flip .packaged)^[(s.placesAt s.instructions.size c).count i] F)) ∧
      ((∀ i ∈ s.placesAt s.instructions.size c, Odd ((s.placesAt s.instructions.size c).count i)) →
        t.flattened c = some ys ∧ ((circuitText c).outcome t).1 = ((circuitText c).outcome v).1) := by
  obtain ⟨lost, hsound, -⟩ := hs.exists_sound Library.isRegular_packaged
  obtain ⟨x, hx⟩ : ∃ x, s.circuit? c = some x := ⟨_, Array.getElem?_eq_getElem hc⟩
  have hinv := Library.isInvolutive_packaged
  obtain ⟨xs, hxs, hall⟩ := Store.exists_flattened hsound hnested hunitary hx
  obtain ⟨t, data, hst, ht, hxt, hfaces, hreversed⟩ := returns_inverseCircuit Library.isRegular_packaged hinv hsound hx
    (Store.nests_invertible hsound hnested hunitary hx) hxs
  obtain ⟨_, u, hsu, hu, hxu, hplaces, data', hxu'⟩ := (ends_unshare hsound hx hxs).returns
  have hn : ∀ i ∈ data', u.Nests (Instruction.IsInvertible .packaged) u.instructions.size (u.element i) :=
    Store.nests_of_flattened hxu hall _ hxu'
  obtain ⟨v, data'', huv, hv, hxv, -, hreversed'⟩ :=
    returns_inverseCircuit Library.isRegular_packaged hinv hu hxu' hn hxu
  have hodd : ∀ i ∈ u.placesAt u.instructions.size c, Odd ((u.placesAt u.instructions.size c).count i) := by
    intro i hi
    rw [List.count_eq_one_of_mem (hplaces _) hi]
    exact odd_one
  refine ⟨t, u, v, xs, _, hst, hsu, huv, hxs, hxu, hreversed' hodd, forall₂_isInverse hinv hall,
    fun i F _ hF => hfaces i F hF, fun hodd' => ⟨hreversed hodd', ?_⟩⟩
  have hform := Store.hasForm_of_flattened Library.isAligned_packaged ht (hreversed hodd')
  rw [result_circuitText ht hxt (hreversed hodd') hform, result_circuitText hv hxv (hreversed' hodd) hform]

/-- A circuit that holds one gate at a number of places. -/
def repeatingCalls (places : Nat) : List Call :=
  let b := Bit.single
  [.newCircuit (some (.text "c")) [.register b.register], .newComposite 0 (.datum (.text "g")) [.bit b] (.ok []),
    .applyGate (.gate 0) "s" [.bit b] (.ok [])] ++ List.replicate places (.attach (.circuit 0) 0)

/-- A gate that stands at three places is flipped three times, which is as good as once. -/
theorem inverseCircuit_unshare_three_places :
    let s := ((repeatingCalls 3).foldl (Store.next .packaged) ({}, [])).1
    s.IsNested 0 ∧ s.IsUnitary 0 ∧ ∃ t u v xs ys, (inverseCircuit 0).Returns s () t ∧ (unshare 0).Returns s () u ∧
      (inverseCircuit 0).Returns u () v ∧ s.flattened 0 = some xs ∧ t.flattened 0 = some ys ∧ v.flattened 0 = some ys ∧
      List.Forall₂ (Instruction.IsInverse .packaged) xs.reverse ys := by
  have hreach := Store.reachable_foldl .packaged (repeatingCalls 3) (by decide +kernel)
  have hnested := Store.isNested_of_flattened (s := ((repeatingCalls 3).foldl (Store.next .packaged) ({}, [])).1)
    (c := 0) (by decide +kernel)
  have hunitary := Store.isUnitary_of_flattened (s := ((repeatingCalls 3).foldl (Store.next .packaged) ({}, [])).1)
    (c := 0) (by decide +kernel)
  obtain ⟨t, u, v, xs, ys, hst, hsu, huv, hxs, -, hys, hinverse, -, hodd⟩ :=
    inverseCircuit_unshare hreach (by decide +kernel) hnested hunitary
  exact ⟨hnested, hunitary, t, u, v, xs, ys, hst, hsu, huv, hxs, (hodd (by decide +kernel)).1, hys, hinverse⟩

/-- A gate that stands at two places is flipped twice, and the circuit is not inverted. -/
theorem inverseCircuit_repeated :
    let s := ((repeatingCalls 2).foldl (Store.next .packaged) ({}, [])).1
    s.Reachable .packaged [1, 0] ∧ s.IsNested 0 ∧ s.IsUnitary 0 ∧
      ((inverseCircuit 0 >>= fun _ => circuitText 0).outcome s).1.toOption =
        some "OPENQASM 2.0;\ninclude \"qelib1.inc\";\nqreg q[1];\ns q[0];\ns q[0];\n" ∧
      ((unshare 0 >>= fun _ => inverseCircuit 0 >>= fun _ => circuitText 0).outcome s).1.toOption =
        some "OPENQASM 2.0;\ninclude \"qelib1.inc\";\nqreg q[1];\nsdg q[0];\nsdg q[0];\n" := by
  have hreach := Store.reachable_foldl .packaged (repeatingCalls 2) (by decide +kernel)
  have hhanded : ((repeatingCalls 2).foldl (Store.next .packaged) ({}, [])).2 = [1, 0] := by decide +kernel
  rw [hhanded] at hreach
  exact ⟨hreach, Store.isNested_of_flattened (by decide +kernel), Store.isUnitary_of_flattened (by decide +kernel),
    by decide +kernel, by decide +kernel⟩

end Action

end QasmCircuit
