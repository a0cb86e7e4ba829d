import Mathlib
import QasmCircuit.Grid

/-!
# Operators on more qubits

An operator is extended by the identity on the other qubits, and an exchange of axes brings the qubits into their
order. The axes are exchanged along the inverse of the order: the bit of an index at a qubit goes to where the order
has this qubit. What comes out collects the bits in the order (`scatter_axesOf`), so that its first bits belong to the
operator and its last bits to the identity.

> `Matrix.embedMatrix_places`: the entries of an operator that was extended.
-/

namespace QasmCircuit.Matrix

open List

/-- The number whose bits, from the most significant one on, are the bits of an index at some positions. -/
def gather (n : Nat) (positions : List Nat) (index : Nat) : Nat :=
  positions.foldl (fun acc p => 2 * acc + bitAt n p index) 0

/-- Two indices of `n` bits have the same bits outside of some positions. -/
def AgreeOutside (n : Nat) (positions : List Nat) (i j : Nat) : Prop :=
  ∀ q < n, q ∉ positions → bitAt n q i = bitAt n q j

instance (n : Nat) (positions : List Nat) (i j : Nat) : Decidable (AgreeOutside n positions i j) :=
  inferInstanceAs (Decidable (∀ q < n, _))

/-- The qubits that are not at some positions, in ascending order. -/
def others (n : Nat) (positions : List Nat) : List Nat := (range n).filter fun q => !positions.contains q

variable {n i j : Nat} {ps qs positions : List Nat}

/-! ## Collected bits -/

theorem foldl_bits (b : Nat → Nat) (acc : Nat) :
    ps.foldl (fun acc p => 2 * acc + b p) acc = acc * 2 ^ ps.length + ps.foldl (fun acc p => 2 * acc + b p) 0 := by
  induction ps generalizing acc with
  | nil => simp
  | cons p ps ih =>
    rw [foldl_cons, foldl_cons, ih, ih (2 * 0 + b p), length_cons, Nat.pow_succ]
    grind

theorem gather_cons (p : Nat) : gather n (p :: ps) i = bitAt n p i * 2 ^ ps.length + gather n ps i := by
  rw [gather, foldl_cons, foldl_bits, Nat.mul_zero, Nat.zero_add, gather]

theorem gather_append : gather n (ps ++ qs) i = gather n ps i * 2 ^ qs.length + gather n qs i := by
  rw [gather, foldl_append, foldl_bits, gather, gather]

theorem gather_lt : gather n ps i < 2 ^ ps.length := by
  induction ps with
  | nil => exact Nat.one_pos
  | cons p ps ih =>
    have hbit : bitAt n p i * 2 ^ ps.length ≤ 1 * 2 ^ ps.length :=
      Nat.mul_le_mul_right _ (Nat.lt_succ_iff.mp (Nat.mod_lt _ Nat.two_pos))
    rw [gather_cons, length_cons, Nat.pow_succ]
    omega

theorem gather_eq_iff : gather n ps i = gather n ps j ↔ ∀ p ∈ ps, bitAt n p i = bitAt n p j := by
  induction ps with
  | nil => simp [gather]
  | cons p ps ih =>
    have hi : gather n ps i < 2 ^ ps.length := gather_lt
    have hj : gather n ps j < 2 ^ ps.length := gather_lt
    have hbi : bitAt n p i = 0 ∨ bitAt n p i = 1 := Nat.mod_two_eq_zero_or_one _
    have hbj : bitAt n p j = 0 ∨ bitAt n p j = 1 := Nat.mod_two_eq_zero_or_one _
    rw [gather_cons, gather_cons, forall_mem_cons, ← ih]
    rcases hbi with hbi | hbi <;> rcases hbj with hbj | hbj <;> rw [hbi, hbj] <;> omega

/-- A collected bit counts as its place says. -/
theorem gather_eq_foldr (h : ps.Nodup) :
    gather n ps i = (ps.map fun p => bitAt n p i * 2 ^ (ps.length - 1 - ps.idxOf p)).foldr (· + ·) 0 := by
  induction ps with
  | nil => rfl
  | cons p ps ih =>
    obtain ⟨hp, hps⟩ := nodup_cons.mp h
    rw [gather_cons, map_cons, foldr_cons, ih hps, idxOf_cons_self]
    congr 2
    refine map_congr_left fun q hq => ?_
    have hne : p ≠ q := fun he => hp (he ▸ hq)
    rw [idxOf_cons_ne _ hne, length_cons]
    congr 2
    omega

/-! ## Entries -/

section

variable {α : Type} [Zero α] {m : Matrix α}

theorem get_reshape {rows cols : Nat} (h : m.cols = cols) (hi : i < rows) (hj : j < cols) :
    (m.reshape rows cols).get i j = m.get i j := by
  rw [reshape, get_tabulate _ hi hj, get, h, if_pos hj]

theorem get_transpose {axes : List Nat} (hi : i < 2 ^ n) (hj : j < 2 ^ n) :
    (m.transpose n axes).get i j = m.get (scatter n axes i) (scatter n axes j) := by
  have hsource : ∀ k < 2 ^ n, (Array.ofFn fun (i : Fin (Nat.pow 2 n)) => scatter n axes i).getD k 0 =
    scatter n axes k :=
    fun k hk => by simp [Array.getD, hk]
  refine (get_tabulate _ hi hj).trans ?_
  rw [hsource i hi, hsource j hj]

theorem get_kron_identity [One α] [Mul α] {r r' c c' size : Nat} (hr : r < m.rows) (hr' : r' < size) (hc : c < m.cols)
    (hc' : c' < size) :
    (m.kron (identity size)).get (r * size + r') (c * size + c') = m.get r c * if r' = c' then 1 else 0 := by
  refine (get_tabulate _ (flat_lt hr hr') (flat_lt hc hc')).trans ?_
  show m.get ((r * size + r') / size) ((c * size + c') / size) *
    (identity size : Matrix α).get ((r * size + r') % size) ((c * size + c') % size) = _
  rw [flat_div hr', flat_div hc', flat_mod hr', flat_mod hc', identity, get_tabulate _ hr' hc']

end

/-! ## The order of the qubits -/

theorem axesOf_eq :
    axesOf (positions.map Int.ofNat) n = (range n).map fun q => (positions ++ others n positions).idxOf q := by
  have horder : axisOrder (positions.map Int.ofNat) n = (positions ++ others n positions).map Int.ofNat := by
    rw [axisOrder, others, map_append, filter_map]
    congr 2
    refine filter_congr fun q _ => congrArg not ?_
    rw [Bool.eq_iff_iff, contains_iff_mem, contains_iff_mem]
    exact mem_map_of_injective fun a b => Int.ofNat.inj
  refine map_congr_left fun a _ => ?_
  have hsame : (fun q => q == Int.ofNat a) ∘ Int.ofNat = fun q => q == a :=
    funext fun q => Bool.eq_iff_iff.mpr (by simp)
  rw [horder, idxOf, findIdx_map, hsame, idxOf]

theorem axisFault?_eq_none {count : Nat} {seen axes : List Nat} (hlt : ∀ a ∈ axes, a < count) (hnodup : axes.Nodup)
    (hseen : ∀ a ∈ axes, a ∉ seen) : Grid.axisFault? count seen axes = none := by
  induction axes generalizing seen with
  | nil => rfl
  | cons a axes ih =>
    rw [forall_mem_cons] at hlt hseen
    obtain ⟨ha, haxes⟩ := nodup_cons.mp hnodup
    rw [Grid.axisFault?, if_neg (Nat.not_le.mpr hlt.1), if_neg (by simpa using hseen.1)]
    refine ih hlt.2 haxes fun b hb hmem => ?_
    rcases mem_cons.mp hmem with rfl | hmem
    · exact ha hb
    · exact hseen.2 b hb hmem

section

variable (hnodup : positions.Nodup) (hlt : ∀ p ∈ positions, p < n)

include hnodup hlt

theorem perm_range : (positions ++ others n positions).Perm (range n) := by
  have hothers : (others n positions).Nodup := nodup_range.filter _
  refine (perm_ext_iff_of_nodup (nodup_append.mpr ⟨hnodup, hothers, ?_⟩) nodup_range).mpr fun q => ?_
  · rintro p hp _ hq rfl
    simp [others, hp] at hq
  · simp only [others, mem_append, mem_filter, mem_range, contains_eq_mem, Bool.not_eq_true', decide_eq_false_iff_not]
    by_cases hq : q ∈ positions <;> simp [hq, hlt]

theorem length_order : (positions ++ others n positions).length = n :=
  (perm_range hnodup hlt).length_eq.trans length_range

/-- Where the axes are exchanged along the inverse of an order, the bits are collected in the order. -/
theorem scatter_axesOf :
    scatter n (axesOf (positions.map Int.ofNat) n) i = gather n (positions ++ others n positions) i := by
  have hperm := perm_range hnodup hlt
  rw [gather_eq_foldr (hperm.nodup_iff.mpr nodup_range), (hperm.map _).foldr_eq, length_order hnodup hlt, scatter]
  refine congrArg (foldr _ 0) (map_congr_left fun a ha => ?_)
  rw [axesOf_eq, List.getD_eq_getElem _ _ (by simpa using ha), getElem_map, getElem_range]
  rfl

/-- The axes of distinct qubits can be exchanged. -/
theorem axisFault?_axesOf :
    let axes := axesOf (positions.map Int.ofNat) n
    Grid.axisFault? (2 * n) [] (axes ++ axes.map (n + ·)) = none := by
  intro axes
  have hperm := perm_range hnodup hlt
  have hbound : ∀ a ∈ axes, a < n := by
    rw [show axes = _ from axesOf_eq, forall_mem_map]
    exact fun a ha => Nat.lt_of_lt_of_eq (idxOf_lt_length_of_mem (hperm.mem_iff.mpr ha)) (length_order hnodup hlt)
  have hdistinct : axes.Nodup := by
    rw [show axes = _ from axesOf_eq]
    exact nodup_range.map_on fun a ha b _ h => (idxOf_inj (hperm.mem_iff.mpr ha)).mp h
  refine axisFault?_eq_none (forall_mem_append.mpr ⟨fun a ha => ?_, forall_mem_map.mpr fun a ha => ?_⟩)
    (nodup_append.mpr ⟨hdistinct, hdistinct.map fun a b h => Nat.add_left_cancel h, fun a ha b hb => ?_⟩)
    fun a _ => not_mem_nil
  · have := hbound a ha
    omega
  · have := hbound a ha
    omega
  · obtain ⟨c, -, rfl⟩ := mem_map.mp hb
    have := hbound a ha
    omega

variable {α : Type} [Zero α] [One α] [Mul α] {m : Matrix α} (hrows : m.rows = 2 ^ positions.length)
  (hcols : m.cols = 2 ^ positions.length)

include hrows hcols

theorem get_expand (hi : i < 2 ^ n) (hj : j < 2 ^ n) : (m.expand (positions.map Int.ofNat) n).get i j =
    m.get (gather n positions i) (gather n positions j) * if AgreeOutside n positions i j then 1 else 0 := by
  have hlength := length_order hnodup hlt
  rw [length_append] at hlength
  have hspare : (others n positions).length = n - positions.length := by omega
  have hsize : (2 ^ n : Nat) = 2 ^ positions.length * 2 ^ (n - positions.length) := by
    rw [← Nat.pow_add, ← hspare, hlength]
  have hlast : ∀ k, gather n (others n positions) k < 2 ^ (n - positions.length) := fun k => hspare ▸ gather_lt
  -- The source of an index has the bits for the operator in front of those for the identity.
  have hsource : ∀ k, scatter n (axesOf (positions.map Int.ofNat) n) k =
      gather n positions k * 2 ^ (n - positions.length) + gather n (others n positions) k := fun k => by
    rw [scatter_axesOf hnodup hlt, gather_append, hspare]
  have hbound : ∀ k, gather n positions k * 2 ^ (n - positions.length) + gather n (others n positions) k < 2 ^ n :=
    fun k => hsize ▸ flat_lt gather_lt (hlast k)
  have hagree : gather n (others n positions) i = gather n (others n positions) j ↔ AgreeOutside n positions i j := by
    rw [gather_eq_iff]
    simp [others, AgreeOutside]
  have hfull : (m.kron (identity (2 ^ (n - positions.length)))).cols = 2 ^ n := by
    rw [hsize, ← hcols]
    rfl
  rw [expand, get_transpose hi hj, hsource, hsource, length_map]
  refine (get_reshape hfull (hbound i) (hbound j)).trans ((get_kron_identity ?_ (hlast i) ?_ (hlast j)).trans ?_)
  · exact hrows ▸ gather_lt
  · exact hcols ▸ gather_lt
  · rw [if_congr hagree rfl rfl]

/-- At distinct qubits, nothing but a lack of room is in the way. -/
theorem embedMatrix_eq : Grid.embedMatrix m (positions.map Int.ofNat) n = (do
    Grid.refuse (Grid.sizeFault? 1 (n - positions.length))
    Grid.refuse (Grid.areaFault? (2 ^ n) (2 ^ n))
    if Defect.axisLimit < 2 * n then throw (.defect (.tooManyAxes (2 * n)))
    pure (m.expand (positions.map Int.ofNat) n)) := by
  have hlength := length_order hnodup hlt
  rw [length_append] at hlength
  have hsize : 2 ^ positions.length * Nat.pow 2 (n - positions.length) = 2 ^ n := by
    rw [Nat.pow_eq, ← Nat.pow_add, Nat.add_sub_cancel' (by omega)]
  have hsquare : 2 ^ n * 2 ^ n = Nat.pow 2 (2 * n) := by rw [Nat.pow_eq, Nat.two_mul, Nat.pow_add]
  unfold Grid.embedMatrix
  rw [if_neg (by rw [length_map]; omega)]
  simp only [Int.toNat_natCast, length_map, hrows, hcols, axisFault?_axesOf hnodup hlt, hsize, hsquare, ne_eq,
    not_true_eq_false, if_false]
  rfl

/-- An operator at distinct qubits, in any order, is extended to `n` qubits where there is room for the result. An entry
of the result is the one at the bits of its row and column at these qubits, times one if row and column have the same
other bits and else times zero: it is this entry or zero, where an entry times one is itself and times zero is zero. -/
theorem embedMatrix_places :
    (if 2 ^ n * 2 ^ n ≤ Grid.room then
      Grid.embedMatrix m (positions.map Int.ofNat) n = .ok (m.expand (positions.map Int.ofNat) n)
      else ∃ e, Grid.embedMatrix m (positions.map Int.ofNat) n = .error e) ∧
    let r := m.expand (positions.map Int.ofNat) n
    r.rows = 2 ^ n ∧ r.cols = 2 ^ n ∧
    ∀ i j, i < 2 ^ n → j < 2 ^ n → ∀ x, m.get (gather n positions i) (gather n positions j) = x →
      r.get i j = x * (if AgreeOutside n positions i j then 1 else 0) ∧
      (x * 1 = x → x * 0 = 0 → r.get i j = if AgreeOutside n positions i j then x else 0) := by
  have hfaults : ∀ k < 14, (Grid.sizeFault? 1 k).isNone ∧ (Grid.areaFault? (2 ^ k) (2 ^ k)).isNone := by decide
  rw [embedMatrix_eq hnodup hlt hrows hcols]
  refine ⟨?_, rfl, rfl, fun i j hi hj x hx => ?_⟩
  · split
    · next hroom =>
      have hn : n < 14 := by
        by_contra hn
        have hpow := Nat.pow_le_pow_right Nat.two_pos (Nat.not_lt.mp hn)
        exact absurd (Nat.le_trans (Nat.mul_le_mul hpow hpow) hroom) (by decide)
      rw [Option.isNone_iff_eq_none.mp (hfaults _ (Nat.lt_of_le_of_lt (Nat.sub_le _ _) hn)).1,
        Option.isNone_iff_eq_none.mp (hfaults _ hn).2, if_neg (by unfold Defect.axisLimit; omega)]
      rfl
    · next hroom =>
      cases Grid.sizeFault? 1 (n - positions.length) with
      | some e => exact ⟨e, rfl⟩
      | none =>
        rw [Grid.areaFault?, if_pos (Nat.not_le.mp hroom)]
        split <;> exact ⟨_, rfl⟩
  · rw [get_expand hnodup hlt hrows hcols hi hj, hx]
    refine ⟨rfl, fun hone hzero => ?_⟩
    split
    · exact hone
    · exact hzero

end

/-- Two of three qubits, in an order that moves all three around in a circle: an entry of the operator, and a zero. -/
theorem embedMatrix_places_circle :
    let m := tabulate 4 4 fun i j => 4 * i + j
    let r := m.expand [2, 0] 3
    Grid.embedMatrix m [2, 0] 3 = .ok r ∧ r.get 6 3 = 6 ∧ r.get 6 1 = 0 := by
  have h := @embedMatrix_places 3 [2, 0] (by decide) (by decide) Nat _ _ _ (tabulate 4 4 fun i j => 4 * i + j) rfl rfl
  exact ⟨h.1, (h.2.2.2 6 3 (by decide) (by decide) 6 (by decide)).2 rfl rfl,
    (h.2.2.2 6 1 (by decide) (by decide) 6 (by decide)).2 rfl rfl⟩

end QasmCircuit.Matrix
