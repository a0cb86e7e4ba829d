import Mathlib.Data.List.Nodup
import QasmCircuit.Proofs.Circuit.Invert
import QasmCircuit.Proofs.Circuit.Reachable

/-!
# Inversion reverses a program

Where every gate is flipped an odd number of times, it is flipped once. Flattened, the circuit is then reversed,
with every statement replaced by its inverse (`Store.Flips.expandAll_reverse`). In particular this is so where no gate
stands at two places.
-/

namespace QasmCircuit

open Outcome Relation List

variable {lib : Library} {lost loose : Set InstructionId} {s : Store} {c : CircuitId} {x : Circuit}
  {xs : List Instruction}

/-- A statement that can be undone: it has no body, is as its operation asks for, and is not a measurement. -/
structure Instruction.IsInvertible (lib : Library) (x : Instruction) : Prop where
  leaf : x.isComposite = false
  proper : x.IsProper lib
  unitary : x.IsUnitary

namespace Store

variable {t : Store} {P : Instruction → Prop} {n m : Nat} {i j k : InstructionId} {e : Element} {F : Face}
  {flips : InstructionId → Nat}

/-! ## Places -/

/-- What is inside a gate stands below the places of the gate. -/
theorem mem_gatesAt_succ {G : Face} (hk : k ∈ s.gatesAt n e) (hF : s.face k = some F) (hj : .gate j ∈ F.elements)
    (hG : s.face j = some G) : j ∈ s.gatesAt (n + 1) e := by
  induction n generalizing e with
  | zero => cases e <;> cases hk
  | succ n ih =>
    cases e with
    | leaf x => cases hk
    | gate i =>
      cases hH : s.face i with
      | none =>
        rw [gatesAt, hH] at hk
        cases hk
      | some H =>
        rw [gatesAt_gate hH, mem_cons, mem_flatMap] at hk ⊢
        rcases hk with rfl | ⟨e, he, hk⟩
        · cases hF.symm.trans hH
          refine .inr ⟨.gate j, hj, ?_⟩
          rw [gatesAt_gate hG]
          exact mem_cons_self
        · exact .inr ⟨e, he, ih hk⟩

theorem exists_mem_placesAt (hi : s.Within c i) (hF : s.face i = some F) : ∃ n, ∀ m, n ≤ m → i ∈ s.placesAt m c := by
  induction hi generalizing F with
  | data hx hi =>
    refine ⟨1, fun m hm => ?_⟩
    obtain ⟨m, rfl⟩ := Nat.exists_eq_add_of_le' hm
    rw [placesAt_of_some hx, mem_flatMap]
    exact ⟨_, hi, by rw [element_of_face hF, gatesAt_gate hF]; exact mem_cons_self⟩
  | @inside i j _ hj ih =>
    obtain ⟨x, hx, hmem⟩ := hj
    rcases element_cases hx with ⟨G, hG, -⟩ | ⟨hleaf, -⟩
    · obtain ⟨n, hn⟩ := ih hG
      refine ⟨n + 1, fun m hm => ?_⟩
      obtain ⟨m, rfl⟩ := Nat.exists_eq_add_one.mpr (Nat.zero_lt_of_lt hm)
      have hi := hn m (Nat.le_of_succ_le_succ hm)
      unfold placesAt at hi ⊢
      split at hi
      · obtain ⟨k, hk, hik⟩ := mem_flatMap.mp hi
        refine mem_flatMap.mpr ⟨k, hk, mem_gatesAt_succ hik hG ?_ hF⟩
        obtain ⟨y, name, body, inverted, hy, hop, rfl⟩ := exists_of_face hG
        cases hx.symm.trans hy
        rw [Instruction.inside, hop] at hmem
        rw [← element_of_face hF]
        exact mem_map_of_mem hmem
      · cases hi
    · rw [inside_of_leaf hleaf] at hmem
      cases hmem

theorem placesAt_eq (hx : s.circuit? c = some x) (hn : ∀ i ∈ x.data, s.Nests P n (s.element i)) (hnm : n ≤ m) :
    s.placesAt m c = s.placesAt n c := by
  rw [placesAt_of_some hx, placesAt_of_some hx]
  exact flatMap_congr fun i hi => (hn i hi).gatesAt_eq hnm

theorem mem_placesAt (hx : s.circuit? c = some x) (hn : ∀ i ∈ x.data, s.Nests P n (s.element i)) (hi : s.Within c i)
    (hF : s.face i = some F) : i ∈ s.placesAt n c := by
  obtain ⟨m, hm⟩ := exists_mem_placesAt hi hF
  rw [← placesAt_eq hx hn (Nat.le_max_left n m)]
  exact hm _ (Nat.le_max_right n m)

theorem mem_gatesAt_known (hs : s.Sound lib lost loose) (hi : s.Known lost i) (hk : k ∈ s.gatesAt n (s.element i)) :
    s.Known lost k := by
  induction n generalizing i with
  | zero => cases helement : s.element i <;> rw [helement] at hk <;> cases hk
  | succ n ih =>
    obtain ⟨x, hx⟩ := hi.exists_instruction
    rcases element_cases hx with ⟨F, hF, hgate⟩ | ⟨-, helement⟩
    · rw [hgate, gatesAt_gate hF, mem_cons, mem_flatMap] at hk
      rcases hk with rfl | ⟨e, he, hk⟩
      · exact hi
      · obtain ⟨y, name, body, inverted, hy, hop, rfl⟩ := exists_of_face hF
        obtain ⟨j, hj, rfl⟩ := mem_map.mp he
        exact ih (hs.part hi.1 hy hop j hj).known hk
    · rw [helement, gatesAt_leaf] at hk
      cases hk

/-- Gates that are not nested to a number of levels stand at as many places. -/
theorem le_length_gatesAt (hs : s.Sound lib lost loose) (hi : s.Known lost i)
    (h : ¬ s.Nests (fun _ => True) n (s.element i)) : n ≤ (s.gatesAt n (s.element i)).length := by
  induction n generalizing i with
  | zero => exact Nat.zero_le _
  | succ n ih =>
    obtain ⟨x, hx⟩ := hi.exists_instruction
    rcases element_cases hx with ⟨F, hF, hgate⟩ | ⟨-, helement⟩
    · obtain ⟨y, name, body, inverted, hy, hop, rfl⟩ := exists_of_face hF
      rw [hgate] at h ⊢
      have hdeep : ∃ j ∈ body, ¬ s.Nests (fun _ => True) n (s.element j) := by
        by_contra hall
        refine h ⟨_, hF, fun e he => ?_⟩
        obtain ⟨j, hj, rfl⟩ := mem_map.mp he
        by_contra hnot
        exact hall ⟨j, hj, hnot⟩
      obtain ⟨j, hj, hnot⟩ := hdeep
      have hle := ih (hs.part hi.1 hy hop j hj).known hnot
      rw [gatesAt_gate hF, length_cons]
      refine Nat.succ_le_succ (hle.trans ?_)
      exact (sublist_flatten_of_mem (mem_map_of_mem (mem_map_of_mem hj))).length_le
    · rw [helement] at h
      exact absurd (nests_leaf.mpr trivial) h

theorem Nests.of_contains (h : s.Nests P n (s.element i)) (hij : s.Contains i j) :
    ∃ m, n = m + 1 ∧ s.Nests P m (s.element j) := by
  obtain ⟨x, hx, hj⟩ := hij
  rcases element_cases hx with ⟨F, hF, hgate⟩ | ⟨hleaf, -⟩
  · rw [hgate] at h
    cases n with
    | zero => exact h.elim
    | succ n =>
      obtain ⟨G, hG, hall⟩ := h
      cases hF.symm.trans hG
      obtain ⟨y, name, body, inverted, hy, hop, rfl⟩ := exists_of_face hF
      cases hx.symm.trans hy
      rw [Instruction.inside, hop] at hj
      exact ⟨n, rfl, hall _ (mem_map_of_mem hj)⟩
  · rw [inside_of_leaf hleaf] at hj
    cases hj

theorem Nests.not_transGen (h : s.Nests P n (s.element i)) : ¬ TransGen s.Contains i i := by
  induction n generalizing i with
  | zero =>
    intro hcycle
    obtain ⟨j, hij, -⟩ := TransGen.head'_iff.mp hcycle
    obtain ⟨m, hm, -⟩ := h.of_contains hij
    cases hm
  | succ n ih =>
    intro hcycle
    obtain ⟨j, hij, hji⟩ := TransGen.head'_iff.mp hcycle
    obtain ⟨m, hm, hj⟩ := h.of_contains hij
    obtain rfl := Nat.succ.inj hm
    exact ih hj (TransGen.tail' hji hij)

section

variable (hn : ∀ x, s.circuit? c = some x → ∀ i ∈ x.data, s.Nests P n (s.element i))

include hn

theorem Within.exists_nests (hi : s.Within c i) : ∃ m, s.Nests P m (s.element i) := by
  induction hi with
  | data hx hi => exact ⟨n, hn _ hx _ hi⟩
  | inside _ hj ih =>
    obtain ⟨m, hm⟩ := ih
    obtain ⟨m', -, hm'⟩ := hm.of_contains hj
    exact ⟨m', hm'⟩

theorem isNested_of_nests : s.IsNested c := by
  intro i hi
  obtain ⟨m, hm⟩ := hi.exists_nests hn
  exact hm.not_transGen

end

/-- Gates that stand at one place each do not contain themselves. -/
theorem isNested_of_nodup (hs : s.Sound lib lost loose) (h : ∀ n, (s.placesAt n c).Nodup) : s.IsNested c := by
  refine isNested_of_nests (P := fun _ => True) (n := s.instructions.size + 1) fun x hx i hi => ?_
  by_contra hnot
  have hknown := (hs.data c x hx i hi).known
  have hle := le_length_gatesAt hs hknown hnot
  have hnodup : (s.gatesAt (s.instructions.size + 1) (s.element i)).Nodup := by
    have hplaces := h (s.instructions.size + 1)
    rw [placesAt_of_some hx] at hplaces
    exact hplaces.sublist (sublist_flatten_of_mem (mem_map.mpr ⟨i, hi, rfl⟩))
  have hroom : s.gatesAt (s.instructions.size + 1) (s.element i) ⊆ List.range s.instructions.size := fun k hk =>
    mem_range.mpr (mem_gatesAt_known hs hknown hk).2
  have hlength := (subperm_of_subset hnodup hroom).length_le
  rw [length_range] at hlength
  exact Nat.lt_irrefl _ (Nat.lt_of_lt_of_le hle hlength)

/-! ## Flattening what is flipped -/

/-- What stands below some places, reversed and inverted, is what stands below them once they are. -/
theorem expandAll_reverse {es : List Element} (h : s.expandAll n es = some xs)
    (hes : ∀ e ∈ es, ∀ part, s.expand n e = some part → t.expand n (e.inverted lib) =
      some (part.reverse.map (Instruction.inverted lib))) :
    t.expandAll n (es.reverse.map (Element.inverted lib)) = some (xs.reverse.map (Instruction.inverted lib)) := by
  rw [expandAll_eq_some] at h ⊢
  obtain ⟨parts, hparts, rfl⟩ := h
  refine ⟨(parts.map fun part => part.reverse.map (Instruction.inverted lib)).reverse, ?_, ?_⟩
  · rw [map_reverse, forall₂_reverse_iff, forall₂_map_left_iff, forall₂_map_right_iff]
    exact forall₂_imp_of_mem hparts hes
  · rw [reverse_flatten, map_flatten, map_reverse, List.map_map]
    rfl

/-- Where all gates below a place are flipped an odd number of times, what stands below it is reversed and
inverted. -/
theorem Flips.expand_reverse (hlib : lib.IsInvolutive) (hst : s.Flips lib flips t)
    (hn : s.Nests (Instruction.IsProper lib) n e) (hodd : ∀ k ∈ s.gatesAt n e, Odd (flips k))
    (h : s.expand n e = some xs) : t.expand n (e.inverted lib) = some (xs.reverse.map (Instruction.inverted lib)) := by
  induction n generalizing e xs with
  | zero =>
    cases e with
    | leaf x =>
      cases h
      rfl
    | gate i => exact hn.elim
  | succ n ih =>
    cases e with
    | leaf x =>
      cases h
      rfl
    | gate i =>
      obtain ⟨F, hF, hall⟩ := hn
      have hproper : F.IsProper lib := fun x hx => nests_leaf.mp (hall _ hx)
      rw [gatesAt_gate hF, forall_mem_cons] at hodd
      have hFt : t.face i = some (F.flip lib) := by
        rw [hst.gate i F hF, Face.flip_iterate_odd hlib hproper hodd.1]
      rw [expand_gate hF] at h
      show t.expand (n + 1) (.gate i) = _
      rw [expand_gate hFt]
      refine expandAll_reverse h fun e he part hpart => ih (hall e he) (fun k hk => ?_) hpart
      exact hodd.2 k (mem_flatMap.mpr ⟨e, he, hk⟩)

/-- Nothing in a circuit is measured, on no level. -/
def IsUnitary (s : Store) (c : CircuitId) : Prop := ∀ i x, s.Within c i → s.instruction? i = some x → x.IsUnitary

theorem nests_invertible (hs : s.Sound lib lost loose) (hc : s.IsNested c) (hunitary : s.IsUnitary c)
    (hx : s.circuit? c = some x) :
    ∀ i ∈ x.data, s.Nests (Instruction.IsInvertible lib) s.instructions.size (s.element i) := fun _ hi =>
  nests_of_isNested hs hc (.data hx hi) fun j y hj hy hleaf =>
    ⟨hleaf, hs.proper j y (hs.member_of_within hj).kept hy, hunitary j y hj hy⟩

theorem exists_flattened (hs : s.Sound lib lost loose) (hc : s.IsNested c) (hunitary : s.IsUnitary c)
    (hx : s.circuit? c = some x) : ∃ xs, s.flattened c = some xs ∧ ∀ y ∈ xs, y.IsInvertible lib := by
  rw [flattened_of_some hx]
  refine expandAll_of_nests fun e he => ?_
  obtain ⟨i, hi, rfl⟩ := mem_map.mp he
  exact nests_invertible hs hc hunitary hx i hi

theorem nests_of_flattened (h : s.flattened c = some xs) (hxs : ∀ x ∈ xs, P x) :
    ∀ x, s.circuit? c = some x → ∀ i ∈ x.data, s.Nests P s.instructions.size (s.element i) := by
  intro x hx i hi
  rw [flattened_of_some hx] at h
  obtain ⟨part, hpart, hall⟩ := forall_of_expandAll h hxs _ (mem_map_of_mem hi)
  exact nests_of_expand hpart hall

/-- A circuit that can be flattened is nested. -/
theorem isNested_of_flattened (h : (s.flattened c).isSome) : s.IsNested c := by
  obtain ⟨xs, hxs⟩ := Option.isSome_iff_exists.mp h
  exact isNested_of_nests (nests_of_flattened (P := fun _ => True) hxs fun _ _ => trivial)

/-- A circuit in which nothing is measured once it is flattened. -/
theorem isUnitary_of_flattened (h : ∃ xs ∈ s.flattened c, ∀ x ∈ xs, x.IsUnitary) : s.IsUnitary c := by
  obtain ⟨xs, hxs, hall⟩ := h
  have hn := nests_of_flattened hxs hall
  intro i x hi hx
  obtain ⟨m, hm⟩ := hi.exists_nests hn
  rcases element_cases hx with ⟨F, hF, -⟩ | ⟨-, helement⟩
  · obtain ⟨y, name, body, flag, hy, hop, -⟩ := exists_of_face hF
    cases hx.symm.trans hy
    rw [Instruction.IsUnitary, hop]
    exact Operation.noConfusion
  · exact nests_leaf.mp (helement ▸ hm)

/-- A circuit in which all gates are flipped an odd number of times, and what stands in it is reversed and inverted,
is reversed and inverted when it is flattened. -/
theorem Flips.flattened_reverse (hlib : lib.IsInvolutive) (hst : s.Flips lib flips t)
    (hsize : s.instructions.size ≤ t.instructions.size) {y : Circuit} (hx : s.circuit? c = some x)
    (hn : ∀ i ∈ x.data, s.Nests (Instruction.IsProper lib) s.instructions.size (s.element i))
    (hodd : ∀ k ∈ s.placesAt s.instructions.size c, Odd (flips k)) (hy : t.circuit? c = some y)
    (hdata : y.data.map t.element = x.data.reverse.map fun i => (s.element i).inverted lib)
    (hxs : s.flattened c = some xs) : t.flattened c = some (xs.reverse.map (Instruction.inverted lib)) := by
  rw [flattened_of_some hx] at hxs
  rw [flattened_of_some hy]
  refine expandAll_mono (n := s.instructions.size) ?_ hsize
  have helements : y.data.map t.element = (x.data.map s.element).reverse.map (Element.inverted lib) := by
    rw [hdata, ← map_reverse, List.map_map]
    rfl
  rw [helements]
  refine expandAll_reverse hxs fun e he part hpart => ?_
  obtain ⟨i, hi, rfl⟩ := mem_map.mp he
  refine hst.expand_reverse hlib (hn i hi) (fun k hk => hodd k ?_) hpart
  rw [placesAt_of_some hx]
  exact mem_flatMap.mpr ⟨i, hi, hk⟩

/-- A gate that is flipped once has its flag turned, and keeps all but its body. -/
theorem instruction?_of_flip {z : Instruction} {name : String} {body : List InstructionId} {flag : Bool}
    (hz : s.instruction? i = some z) (hop : z.operation = .composite name body flag)
    (h : ∀ F, s.face i = some F → t.face i = some (F.flip lib)) :
    ∃ body', t.instruction? i = some { z with operation := .composite name body' (!flag) } := by
  obtain ⟨y, name', body', flag', hy, hop', heq⟩ := exists_of_face (h _ (face_of_composite hz hop))
  exact ⟨body', hy.trans (congrArg some (eq_of_head hop' (congrArg Face.head heq)))⟩

end Store

namespace Action

/-- Inverting a circuit flips each gate once for each of its places. If all stand at an odd number of places, the
flattened circuit is reversed, with every instruction inverted. -/
theorem returns_inverseCircuit
    (hlib : lib.IsRegular) (hinv : lib.IsInvolutive) (hs : s.Sound lib lost loose) (hx : s.circuit? c = some x)
    (hn : ∀ i ∈ x.data, s.Nests (Instruction.IsInvertible lib) s.instructions.size (s.element i))
    (hxs : s.flattened c = some xs) :
    ∃ t data, (inverseCircuit c).Returns s () t ∧ t.Sound lib lost loose ∧ t.circuit? c = some { x with data } ∧
      (∀ i F, s.face i = some F → t.face i = some ((Face.flip lib)^[(s.placesAt s.instructions.size c).count i] F)) ∧
      ((∀ i ∈ s.placesAt s.instructions.size c, Odd ((s.placesAt s.instructions.size c).count i)) →
        t.flattened c = some (xs.reverse.map (Instruction.inverted lib))) := by
  obtain ⟨_, t, hreturns, data, ht, hst, hflips, hdata, hxt⟩ :=
    (ends_inverseCircuit hlib hinv.hasInverses hs hx fun i hi => (hn i hi).imp fun _ h => h.unitary).returns
  refine ⟨t, data, hreturns, ht, hxt, hflips.gate, fun hodd => ?_⟩
  exact hflips.flattened_reverse hinv hst.size_le hx (fun i hi => (hn i hi).imp fun _ h => h.proper) hodd hxt hdata hxs

end Action

end QasmCircuit
