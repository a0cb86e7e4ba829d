import QasmCircuit.Proofs.Circuit.Flip

/-!
# What inversion does to a circuit

Inversion goes down every way from a circuit to its gates. A gate is flipped each time the way comes to it, once
for every place where it stands, and nothing else is changed (`Store.Flips`): instructions without a body are
replaced by new ones. The places do not change while their gates are flipped, so that the flips of all ways add up
(`Action.inverts_inverse`, `Action.ends_inverseCircuit`).
-/

namespace QasmCircuit

open Outcome List

variable {lib : Library} {s t : Store} {i : InstructionId} {lost loose : Set InstructionId} {n : Nat}

namespace Store

variable {u : Store} {m m' : InstructionId → Nat} {j k : InstructionId} {x y : Instruction}

/-- Every gate is flipped a number of times; instructions without a body are as they were, and new ones are without
a body. -/
structure Flips (lib : Library) (m : InstructionId → Nat) (s t : Store) : Prop where
  leaf : ∀ i x, s.instruction? i = some x → x.isComposite = false → t.instruction? i = some x
  gate : ∀ i F, s.face i = some F → t.face i = some ((Face.flip lib)^[m i] F)
  new : ∀ i y, s.instruction? i = none → t.instruction? i = some y → y.isComposite = false

/-! ## Single writes -/

theorem element_put (hx : s.instruction? i = some x) (hxc : x.isComposite) (hyc : y.isComposite) :
    (s.put i y).element = s.element := by
  funext k
  rw [element, element, instruction?_put_of_some hx]
  by_cases hki : k = i
  · rw [if_pos hki, hki, hx]
    dsimp only
    rw [hxc, hyc]
    rfl
  · rw [if_neg hki]

theorem face_put_ne (hx : s.instruction? i = some x) (hxc : x.isComposite) (hyc : y.isComposite)
    (hki : k ≠ i) : (s.put i y).face k = s.face k := by
  rw [face, face, instruction?_put_of_some hx, if_neg hki, element_put hx hxc hyc]

variable {z : Instruction}

theorem element_push (hx : s.instruction? i = some x) : (s.push z).element i = s.element i := by
  rw [element, element, instruction?_push_of_some hx, hx]

/-- A new instruction changes nothing of what was there. -/
theorem face_push (hs : s.Sound lib lost loose) {F : Face}
    (hF : s.face i = some F) : (s.push z).face i = some F := by
  obtain ⟨x, name, body, inverted, hx, hop, rfl⟩ := exists_of_face hF
  rw [face_of_composite (instruction?_push_of_some hx) hop]
  refine congrArg some (congrArg (Face.mk _) (map_congr_left fun j hj => ?_))
  have hlt := hs.inside_lt i x hx j (by rw [Instruction.inside, hop]; exact hj)
  exact element_push (Array.getElem?_eq_getElem hlt)

theorem gatesAt_inverted (s : Store) (n : Nat) (e : Element) : s.gatesAt n (e.inverted lib) = s.gatesAt n e := by
  cases e with
  | gate i => rfl
  | leaf x => exact (gatesAt_leaf s n _).trans (gatesAt_leaf s n x).symm

namespace Flips

theorem refl (lib : Library) (s : Store) : Flips lib (fun _ => 0) s s :=
  ⟨fun _ _ hx _ => hx, fun _ _ hF => hF, fun _ _ hnone hy => nomatch hnone.symm.trans hy⟩

theorem trans (hst : Flips lib m s t) (htu : Flips lib m' t u) : Flips lib (fun k => m' k + m k) s u where
  leaf i x hx hleaf := htu.leaf i x (hst.leaf i x hx hleaf) hleaf
  gate i F hF := by
    rw [htu.gate i _ (hst.gate i F hF), Function.iterate_add_apply]
  new i y hnone hy := by
    cases hz : t.instruction? i with
    | none => exact htu.new i y hz hy
    | some z =>
      have hleaf := hst.new i z hnone hz
      obtain rfl : z = y := Option.some.inj ((htu.leaf i z hz hleaf).symm.trans hy)
      exact hleaf

theorem congr (hst : Flips lib m s t) (h : ∀ k, m k = m' k) : Flips lib m' s t := (funext h : m = m') ▸ hst

theorem push (hs : s.Sound lib lost loose) (hx : x.isComposite = false) :
    Flips lib (fun _ => 0) s (s.push x) := by
  refine ⟨fun _ _ hz _ => instruction?_push_of_some hz, fun _ _ hF => face_push hs hF, fun i y hnone hy => ?_⟩
  rw [instruction?_push] at hy
  split at hy
  · cases hy
    exact hx
  · exact nomatch hnone.symm.trans hy

theorem element_eq (hst : Flips lib m s t) (hx : s.instruction? i = some x) : t.element i = s.element i := by
  rcases element_cases hx with ⟨F, hF, hgate⟩ | ⟨hleaf, helement⟩
  · rw [hgate, element_of_face (hst.gate i F hF)]
  · rw [helement, element_of_leaf (hst.leaf i x hx hleaf) hleaf]

theorem face_eq_none (hst : Flips lib m s t) (h : s.face i = none) : t.face i = none := by
  by_contra hsome
  obtain ⟨F, hF⟩ := Option.ne_none_iff_exists'.mp hsome
  obtain ⟨y, name, body, inverted, hy, hop, -⟩ := exists_of_face hF
  have hcomposite : y.isComposite := isComposite_iff.mpr ⟨name, body, inverted, hop⟩
  cases hx : s.instruction? i with
  | none => exact Bool.false_ne_true ((hst.new i y hx hy).symm.trans hcomposite)
  | some x =>
    rcases element_cases hx with ⟨G, hG, -⟩ | ⟨hleaf, -⟩
    · exact nomatch h.symm.trans hG
    · obtain rfl : x = y := Option.some.inj ((hst.leaf i x hx hleaf).symm.trans hy)
      exact Bool.false_ne_true (hleaf.symm.trans hcomposite)

/-- Gates are nested as they were. -/
theorem nests {P : Instruction → Prop} (hP : ∀ x, P x → P (x.inverted lib)) (hst : Flips lib m s t)
    {e : Element} (h : s.Nests P n e) : t.Nests P n e := by
  induction n generalizing e with
  | zero =>
    cases e with
    | leaf x => exact h
    | gate i => exact h.elim
  | succ n ih =>
    cases e with
    | leaf x => exact h
    | gate i =>
      obtain ⟨F, hF, hall⟩ := h
      refine ⟨_, hst.gate i F hF, ?_⟩
      refine Face.forall_elements_iterate (Q := t.Nests P n) (fun e he => ?_) (m i) fun e he => ih (hall e he)
      cases e with
      | gate j => exact he
      | leaf x => exact nests_leaf.mpr (hP x (nests_leaf.mp he))

/-- Gates stand at as many places as before. -/
theorem perm_gatesAt (hst : Flips lib m s t) (n : Nat) (e : Element) : (t.gatesAt n e).Perm (s.gatesAt n e) := by
  induction n generalizing e with
  | zero => cases e <;> exact .refl _
  | succ n ih =>
    cases e with
    | leaf x => exact .refl _
    | gate i =>
      cases hF : s.face i with
      | none => rw [gatesAt, gatesAt, hF, hst.face_eq_none hF]
      | some F =>
        rw [gatesAt_gate hF, gatesAt_gate (hst.gate i F hF)]
        refine .cons i (.trans (.flatMap_left _ fun e _ => ih e) ?_)
        exact Face.perm_flatMap_iterate (s.gatesAt_inverted n) (m i)

end Flips

end Store

/-! ## Inversion -/

/-- An instruction that can be undone: it is not a measurement. -/
def Instruction.IsUnitary (x : Instruction) : Prop := x.operation ≠ .measure

instance : DecidablePred Instruction.IsUnitary := fun x =>
  match h : x.operation with
  | .measure => isFalse fun hx => hx h
  | .atomic _ => isTrue fun hx => nomatch h.symm.trans hx
  | .barrier => isTrue fun hx => nomatch h.symm.trans hx
  | .composite _ _ _ => isTrue fun hx => nomatch h.symm.trans hx

theorem Instruction.IsUnitary.inverted {x : Instruction} (h : x.IsUnitary) :
    (x.inverted lib).IsUnitary :=
  inverted_ne_measure h

namespace Action

variable {x : Instruction}

/-- An instruction without a body is left as it is, and its inverse is given. -/
theorem ends_inverse_leaf (hlib : lib.HasInverses)
    (hs : s.Sound lib lost loose) (hi : s.Known lost i) (hx : s.instruction? i = some x)
    (hleaf : x.isComposite = false) (hunitary : x.IsUnitary) :
    (inverse (n + 1) i).Attains s fun j t => t.circuits = s.circuits ∧ s.Flips lib (fun _ => 0) t ∧
      t.element j = .leaf (x.inverted lib) := by
  have hproper := hs.proper i x hi.1 hx
  have hkeep : x.inverted lib = x → s.circuits = s.circuits ∧ s.Flips lib (fun _ => 0) s ∧
      s.element i = .leaf (x.inverted lib) := fun h => ⟨rfl, .refl lib s, by rw [h, Store.element_of_leaf hx hleaf]⟩
  refine ends_bind.mpr ((ends_instruction_of_some hx).mpr ?_)
  split
  · next f hop =>
    obtain ⟨g, params, hg, hparams⟩ := Instruction.exists_inverse hlib hop hproper
    refine ends_ite (fun hself => hkeep (Instruction.inverted_of_selfInverse hop hproper hself)) fun _ => ?_
    obtain ⟨d, hd, -⟩ := (hs.formed i x hi.1 hx).home (by rw [Instruction.isBarrier, hop])
      (by rw [Instruction.isMeasure, hop])
    refine ends_bind.mpr (ends_lift (fun params' hparams' => ?_) fun e he => by cases hparams.symm.trans he)
    cases hparams.symm.trans hparams'
    refine ends_bind.mpr ((ends_circuit_of_some hd).mpr ?_)
    refine ends_bind.mpr (ends_lift (fun g' hg' => ?_) fun e he => ?_)
    · rw [hs.library _ d hd, Library.lookup_eq_ok, hg] at hg'
      cases hg'
      refine ends_modifyGet.mpr ⟨rfl, .push hs rfl, ?_⟩
      rw [Instruction.inverted_of_atomic hop hg hparams]
      exact Store.element_of_leaf (s.instruction?_push_self _) rfl
    · rw [hs.library _ d hd, Library.lookup, hg] at he
      cases he
  · next hop => exact hkeep (Instruction.inverted_of_not_atomic fun f hf => by cases hop.symm.trans hf)
  · next hop => exact absurd hop hunitary
  · next hop => exact absurd_leaf hleaf hop

/-- A step that inverts an instruction: it flips the gates below it, once for every place, and gives what stands in
its place. -/
def Inverts (lib : Library) (lost loose : Set InstructionId) (n : Nat) (step : InstructionId → Action InstructionId) :
    Prop :=
  ∀ (s : Store) (i : InstructionId), s.Sound lib lost loose → s.Known lost i →
    s.Nests Instruction.IsUnitary n (s.element i) →
    (step i).Attains s (fun j t => t.Sound lib lost loose ∧ s.Grows loose t ∧ t.Known lost j ∧
      t.circuits = s.circuits ∧ s.Flips lib (fun k => (s.gatesAt n (s.element i)).count k) t ∧
      t.element j = (s.element i).inverted lib)

/-- Soundness of inversion is known; what is left is what happens to the gates. -/
theorem ends_inverse_sound (hlib : lib.IsRegular) {Q : InstructionId → Store → Prop}
    (hs : s.Sound lib lost loose) (hi : s.Known lost i) (h : (inverse n i).Attains s Q) :
    (inverse n i).Attains s fun j t => t.Sound lib lost loose ∧ s.Grows loose t ∧ t.Known lost j ∧ Q j t := by
  refine (Ends.and (safe_inverse n hs.toOrderly hi.1) h).imp ?_ fun _ _ h => h.2
  rintro j t ⟨⟨ht, hst, hj⟩, hq⟩
  exact ⟨⟨ht, hlib⟩, hst, hj.known, hq⟩

/-- The flips of one member after the other add up, since flipping keeps all places. -/
theorem Inverts.mapM {step : InstructionId → Action InstructionId} (hstep : Inverts lib lost loose n step)
    {members : List InstructionId} (hs : s.Sound lib lost loose) (hknown : ∀ i ∈ members, s.Known lost i)
    (hn : ∀ i ∈ members, s.Nests Instruction.IsUnitary n (s.element i)) :
    (members.mapM step).Attains s fun js t => t.Sound lib lost loose ∧ s.Grows loose t ∧
      (∀ j ∈ js, t.Known lost j) ∧ t.circuits = s.circuits ∧
      s.Flips lib (fun k => (members.flatMap fun i => s.gatesAt n (s.element i)).count k) t ∧
      js.map t.element = members.map fun i => (s.element i).inverted lib := by
  refine ends_mapM (I := fun done js t => t.Sound lib lost loose ∧ s.Grows loose t ∧
    (∀ j ∈ js, t.Known lost j) ∧ t.circuits = s.circuits ∧
    s.Flips lib (fun k => (done.flatMap fun i => s.gatesAt n (s.element i)).count k) t ∧
    js.map t.element = done.map fun i => (s.element i).inverted lib) ?_
    ⟨hs, .refl s, forall_mem_nil _, rfl, .refl lib s, rfl⟩
  rintro done i rest js t hsplit ⟨ht, hst, hjs, hcircuits, hflips, helements⟩
  have hi : i ∈ members := by
    rw [hsplit]
    exact mem_append_right done mem_cons_self
  obtain ⟨x, hx⟩ := (hknown i hi).exists_instruction
  have helement : t.element i = s.element i := hflips.element_eq hx
  have hnt : t.Nests Instruction.IsUnitary n (t.element i) := by
    rw [helement]
    exact hflips.nests (fun _ h => h.inverted) (hn i hi)
  refine (hstep t i ht ((hknown i hi).mono hst) hnt).map ?_
  rintro j u ⟨hu, htu, hj, hcircuits', hflips', helement'⟩
  refine ⟨hu, hst.trans htu, forall_mem_concat (fun k hk => (hjs k hk).mono htu) hj, hcircuits'.trans hcircuits,
    (hflips.trans hflips').congr fun k => ?_, ?_⟩
  · rw [helement, (hflips.perm_gatesAt n (s.element i)).count_eq, flatMap_append, count_append,
      flatMap_singleton, Nat.add_comm]
  · have hold : js.map u.element = js.map t.element := map_congr_left fun j' hj' => by
      obtain ⟨y, hy⟩ := (hjs j' hj').exists_instruction
      exact hflips'.element_eq hy
    rw [map_append, hold, helements, map_append, map_singleton, map_singleton, helement', helement]

/-- A gate whose body is inverted and put in its place is flipped. -/
theorem flips_put {name : String} {body body' : List InstructionId}
    {inverted : Bool} {m : InstructionId → Nat} (hx : s.instruction? i = some x)
    (hop : x.operation = .composite name body inverted) (hst : s.Flips lib m t) (hm : m i = 0)
    (hbody : body'.map t.element = body.reverse.map fun j => (s.element j).inverted lib) :
    s.Flips lib (fun k => if k = i then 1 else m k)
      (t.put i { x with operation := .composite name body' (!inverted) }) := by
  have hF := Store.face_of_composite hx hop
  obtain ⟨y, name', body₀, inverted', hy, hyop, -⟩ := Store.exists_of_face (hst.gate i _ hF)
  have hxc : x.isComposite := Store.isComposite_iff.mpr ⟨_, _, _, hop⟩
  have hyc : y.isComposite := Store.isComposite_iff.mpr ⟨_, _, _, hyop⟩
  have hnew : { x with operation := .composite name body' (!inverted) }.isComposite := rfl
  refine ⟨fun k z hz hleaf => ?_, fun k G hG => ?_, fun k z hnone hz => ?_⟩
  · have hki : k ≠ i := by
      rintro rfl
      cases hx.symm.trans hz
      exact Bool.false_ne_true (hleaf.symm.trans hxc)
    rw [Store.instruction?_put_of_some hy, if_neg hki]
    exact hst.leaf k z hz hleaf
  · by_cases hki : k = i
    · subst hki
      cases hF.symm.trans hG
      rw [Store.face_of_composite (t.instruction?_put k _ (Store.instruction?_lt hy)) rfl,
        Store.element_put hy hyc hnew, hbody, if_pos rfl]
      refine congrArg some (congrArg₂ Face.mk rfl ?_)
      rw [← map_reverse, map_map]
      rfl
    · rw [Store.face_put_ne hy hyc hnew hki, if_neg hki]
      exact hst.gate k G hG
  · have hki : k ≠ i := by
      rintro rfl
      exact nomatch hnone.symm.trans hx
    rw [Store.instruction?_put_of_some hy, if_neg hki] at hz
    exact hst.new k z hnone hz

/-- Inverting a gate flips it and, once for every place, all gates inside it. -/
theorem inverts_inverse (hlib : lib.IsRegular) (hinv : lib.HasInverses) (n : Nat) :
    Inverts lib lost loose n (inverse (n + 1)) := by
  induction n with
  | zero =>
    intro s i hs hi hn
    refine ends_inverse_sound hlib hs hi ?_
    obtain ⟨x, hx⟩ := hi.exists_instruction
    rcases Store.element_cases hx with ⟨F, -, hgate⟩ | ⟨hleaf, helement⟩
    · rw [hgate] at hn
      exact hn.elim
    · rw [helement] at hn ⊢
      exact ends_inverse_leaf hinv hs hi hx hleaf hn
  | succ n ih =>
    intro s i hs hi hn
    refine ends_inverse_sound hlib hs hi ?_
    obtain ⟨x, hx⟩ := hi.exists_instruction
    rcases Store.element_cases hx with ⟨F, hF, hgate⟩ | ⟨hleaf, helement⟩
    · obtain ⟨y, name, body, flag, hy, hop, rfl⟩ := Store.exists_of_face hF
      cases hx.symm.trans hy
      rw [hgate] at hn ⊢
      have hnests := hn
      obtain ⟨G, hG, hall⟩ := hn
      cases hF.symm.trans hG
      have hbody : ∀ j ∈ body, s.Known lost j := fun j hj => (hs.part hi.1 hx hop j hj).known
      -- The gate itself is not reached from inside.
      have hcount : ((body.reverse.flatMap fun j => s.gatesAt n (s.element j)).count i) = 0 := by
        rw [count_eq_zero]
        intro hmem
        obtain ⟨j, hj, hij⟩ := mem_flatMap.mp hmem
        exact hnests.not_mem_gatesAt hF (mem_map_of_mem (mem_reverse.mp hj)) hij
      refine ends_bind.mpr ((ends_instruction_of_some hx).mpr ?_)
      rw [hop]
      have hloop := ih.mapM hs (fun j (hj : j ∈ body.reverse) => hbody j (mem_reverse.mp hj))
        fun j hj => hall _ (mem_map_of_mem (mem_reverse.mp hj))
      refine hloop.bind ?_
      rintro body' t ⟨-, -, -, hcircuits, hflips, helements⟩
      refine ends_bind.mpr (ends_modify.mpr (ends_pure.mpr ⟨hcircuits, ?_, ?_⟩))
      · refine (flips_put hx hop hflips hcount helements).congr fun k => ?_
        rw [Store.gatesAt_gate hF, flatMap_map]
        have hperm := (reverse_perm body).flatMap_right fun j => s.gatesAt n (s.element j)
        split
        · next hki => rw [hki, count_cons_self, ← hperm.count_eq, hcount]
        · next hki => rw [count_cons_of_ne fun h => hki h.symm, hperm.count_eq]
      · exact Store.element_of_face ((flips_put hx hop hflips hcount helements).gate i _ hF)
    · rw [helement] at hn ⊢
      exact ends_inverse_leaf hinv hs hi hx hleaf hn

/-- Inverting a circuit inverts and reverses what stands in it, and flips its gates, once for every place. -/
theorem ends_inverseCircuit (hlib : lib.IsRegular) (hinv : lib.HasInverses) {c : CircuitId} {x : Circuit}
    (hs : s.Sound lib lost loose) (hx : s.circuit? c = some x)
    (hn : ∀ i ∈ x.data, s.Nests Instruction.IsUnitary s.instructions.size (s.element i)) :
    (inverseCircuit c).Attains s fun _ t => ∃ data, t.Sound lib lost loose ∧ s.Grows loose t ∧
      s.Flips lib (fun k => (s.placesAt s.instructions.size c).count k) t ∧
      data.map t.element = (x.data.reverse.map fun i => (s.element i).inverted lib) ∧
      t.circuit? c = some { x with data } := by
  suffices hends : (inverseCircuit c).Attains s (fun _ t => ∃ data,
      s.Flips lib (fun k => (s.placesAt s.instructions.size c).count k) t ∧
      data.map t.element = (x.data.reverse.map fun i => (s.element i).inverted lib) ∧
      t.circuit? c = some { x with data }) by
    refine (Ends.and (safe_inverseCircuit hs.toOrderly) hends).imp ?_ fun _ _ h => h.2
    rintro _ t ⟨⟨ht, hst, -⟩, data, hdata⟩
    exact ⟨data, ⟨ht, hlib⟩, hst, hdata⟩
  refine ends_bind.mpr ((ends_circuit_of_some hx).mpr ?_)
  refine Ends.bind (ends_forM (I := fun t => t = s) ?_ rfl) ?_
  · -- No instruction of the circuit is a measurement.
    rintro i hi t rfl
    obtain ⟨y, hy, -⟩ := (hs.data c x hx i hi).fits
    refine ends_bind.mpr ((ends_instruction_of_some hy).mpr ?_)
    split
    · next hop =>
      have hleaf := hn i hi
      rw [Store.element_of_leaf hy (by rw [Instruction.isComposite, hop]), Store.nests_leaf] at hleaf
      exact absurd hop hleaf
    · exact ends_pure.mpr rfl
  intro _ t ht
  rw [ht]
  refine ends_bind.mpr (ends_depth.mpr ?_)
  have hloop := (inverts_inverse hlib hinv s.instructions.size).mapM hs
    (fun i (hi : i ∈ x.data.reverse) => (hs.data c x hx i (mem_reverse.mp hi)).known) fun i hi => hn i
    (mem_reverse.mp hi)
  refine hloop.bind ?_
  rintro data t ⟨-, -, -, hcircuits, hflips, helements⟩
  have hxt : t.circuit? c = some x := by
    rw [Store.circuit?, hcircuits]
    exact hx
  refine ends_bind.mpr ((ends_circuit_of_some hxt).mpr (ends_modify.mpr ⟨data, ?_, helements, ?_⟩))
  · -- The circuits have no part in how often a gate is flipped.
    have hput : s.Flips lib _ (t.putCircuit c { x with data }) := ⟨hflips.leaf, hflips.gate, hflips.new⟩
    refine hput.congr fun k => ?_
    rw [Store.placesAt_of_some hx]
    exact ((reverse_perm x.data).flatMap_right _).count_eq k
  · show (t.putCircuit c { x with data }).circuit? c = _
    rw [Store.circuit?_putCircuit hxt, if_pos rfl]

end Action

end QasmCircuit
