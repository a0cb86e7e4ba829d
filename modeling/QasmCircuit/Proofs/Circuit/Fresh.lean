import QasmCircuit.Proofs.Circuit.Reversal

/-!
# New instructions

What is built or copied step by step leaves alone what was there before. `Store.Unshared` says of some places that
no gate stands below them twice, that the gates are new since a number, and what it is once it is flattened;
`Store.Fresh` says besides that all that stands there is new. Both are carried from store to store as long as nothing
below the places changes (`Store.Unshared.congr`).
-/

namespace QasmCircuit.Store

open Outcome Relation List

variable {lib : Library} {lost loose : Set InstructionId} {s t u : Store} {i j k : InstructionId} {n m : Nat}
  {is js : List InstructionId} {xs ys : List Instruction} {x : Instruction} {es : List Element}

/-! ## What stands below a place -/

/-- Two stores hold the same instructions below a place. -/
def SameBelow (s t : Store) (i : InstructionId) : Prop :=
  ∀ k, ReflTransGen s.Contains i k → t.instruction? k = s.instruction? k

section

variable (h : s.SameBelow t i)

include h

theorem SameBelow.of_contains (hij : s.Contains i j) : s.SameBelow t j :=
  fun k hjk => h k (.head hij hjk)

theorem SameBelow.element_eq : t.element i = s.element i := by
  rw [element, element, h i .refl]

theorem SameBelow.face_eq : t.face i = s.face i := by
  cases hF : s.face i with
  | none =>
    unfold face at hF ⊢
    rw [h i .refl]
    split
    · next x hx =>
      rw [hx] at hF
      split
      · next hop =>
        dsimp only at hF
        rw [hop] at hF
        cases hF
      · rfl
    · rfl
  | some F =>
    obtain ⟨x, name, body, flag, hx, hop, rfl⟩ := exists_of_face hF
    have hxt : t.instruction? i = some x := (h i .refl).trans hx
    rw [face_of_composite hxt hop]
    have helements : body.map t.element = body.map s.element := map_congr_left fun j hj =>
      (h.of_contains ⟨x, hx, by rw [Instruction.inside, hop]; exact hj⟩).element_eq
    rw [helements]

theorem SameBelow.reach (hik : ReflTransGen t.Contains i k) : ReflTransGen s.Contains i k := by
  induction hik with
  | refl => exact .refl
  | tail _ hlast ih =>
    obtain ⟨x, hx, hmem⟩ := hlast
    exact ih.tail ⟨x, (h _ ih).symm.trans hx, hmem⟩

end

theorem eq_of_element_gate (h : s.element i = .gate k) : k = i := by
  unfold element at h
  split at h
  · split at h
    · exact (Element.gate.inj h).symm
    · cases h
  · exact (Element.gate.inj h).symm

theorem expandAll_congr (h : ∀ e ∈ es, t.expand n e = s.expand n e) : t.expandAll n es = s.expandAll n es := by
  have hmap : es.mapM (t.expand n) = es.mapM (s.expand n) := by
    induction es with
    | nil => rfl
    | cons e es ih =>
      rw [forall_mem_cons] at h
      rw [mapM_cons, mapM_cons, h.1, ih h.2]
  rw [expandAll, expandAll, hmap]

/-- The elements of a gate are those of what it contains. -/
theorem forall_elements {F : Face} (hF : s.face i = some F) {R : Element → Prop}
    (h : ∀ j, s.Contains i j → R (s.element j)) : ∀ e ∈ F.elements, R e := by
  obtain ⟨x, name, body, flag, hx, hop, rfl⟩ := exists_of_face hF
  intro e he
  obtain ⟨j, hj, rfl⟩ := List.mem_map.mp he
  exact h j ⟨x, hx, by rw [Instruction.inside, hop]; exact hj⟩

theorem SameBelow.expand_eq (h : s.SameBelow t i) (n : Nat) : t.expand n (t.element i) = s.expand n (s.element i) := by
  induction n generalizing i with
  | zero =>
    rw [h.element_eq]
    cases s.element i <;> rfl
  | succ n ih =>
    rw [h.element_eq]
    cases helement : s.element i with
    | leaf x => rfl
    | gate k =>
      obtain rfl := eq_of_element_gate helement
      cases hF : s.face k with
      | none => rw [expand, expand, h.face_eq, hF]; rfl
      | some F =>
        rw [expand_gate hF, expand_gate (h.face_eq.trans hF)]
        refine expandAll_congr (forall_elements hF fun j hj => ?_)
        rw [← ih (h.of_contains hj), (h.of_contains hj).element_eq]

theorem SameBelow.gatesAt_eq (h : s.SameBelow t i) (n : Nat) :
    t.gatesAt n (t.element i) = s.gatesAt n (s.element i) := by
  induction n generalizing i with
  | zero =>
    rw [h.element_eq]
    cases s.element i <;> rfl
  | succ n ih =>
    rw [h.element_eq]
    cases helement : s.element i with
    | leaf x => rfl
    | gate k =>
      obtain rfl := eq_of_element_gate helement
      cases hF : s.face k with
      | none => rw [gatesAt, gatesAt, h.face_eq, hF]
      | some F =>
        rw [gatesAt_gate hF, gatesAt_gate (h.face_eq.trans hF)]
        refine congrArg _ (flatMap_congr (forall_elements hF fun j hj => ?_))
        rw [← ih (h.of_contains hj), (h.of_contains hj).element_eq]

/-- The gates at the places below a place stand below it. -/
theorem reach_of_mem_gatesAt (h : k ∈ s.gatesAt n (s.element i)) : ReflTransGen s.Contains i k := by
  induction n generalizing i with
  | zero => cases helement : s.element i <;> rw [helement] at h <;> cases h
  | succ n ih =>
    cases helement : s.element i with
    | leaf x =>
      rw [helement] at h
      cases h
    | gate l =>
      obtain rfl := eq_of_element_gate helement
      cases hF : s.face l with
      | none =>
        rw [helement, gatesAt, hF] at h
        cases h
      | some F =>
        rw [helement, gatesAt_gate hF, mem_cons, mem_flatMap] at h
        rcases h with rfl | ⟨e, he, hk⟩
        · exact .refl
        · exact forall_elements hF (R := fun e => k ∈ s.gatesAt n e → ReflTransGen s.Contains l k)
            (fun j hj hk => .head hj (ih hk)) e he hk

/-- What stands below an instruction of a store is in the store. -/
theorem Sound.reach_lt (hs : s.Sound lib lost loose) (hi : i < s.instructions.size)
    (hik : ReflTransGen s.Contains i k) : k < s.instructions.size := by
  induction hik with
  | refl => exact hi
  | tail _ hlast _ =>
    obtain ⟨x, hx, hmem⟩ := hlast
    exact hs.inside_lt _ x hx _ hmem

/-! ## Stores with more instructions -/

/-- A store has the instructions of another one, and perhaps more. -/
structure Adds (s t : Store) : Prop where
  size_le : s.instructions.size ≤ t.instructions.size
  old : ∀ i, i < s.instructions.size → t.instruction? i = s.instruction? i

theorem Adds.refl (s : Store) : s.Adds s := ⟨Nat.le_refl _, fun _ _ => rfl⟩

theorem Adds.trans (h : s.Adds t) (h' : t.Adds u) : s.Adds u :=
  ⟨h.size_le.trans h'.size_le, fun i hi => (h'.old i (Nat.lt_of_lt_of_le hi h.size_le)).trans (h.old i hi)⟩

theorem adds_push (s : Store) (x : Instruction) : s.Adds (s.push x) where
  size_le := by
    rw [push, Array.size_push]
    exact Nat.le_succ _
  old i hi := by rw [instruction?_push, if_neg (Nat.ne_of_lt hi)]

theorem Adds.sameBelow (h : s.Adds t) (hs : s.Sound lib lost loose) (hi : i < s.instructions.size) :
    s.SameBelow t i := fun k hik => h.old k (hs.reach_lt hi hik)

/-! ## New places -/

/-- No gate stands twice below some places, all gates there are new since a number, and flattened it is some
instructions. -/
structure Unshared (m : Nat) (t : Store) (n : Nat) (is : List InstructionId) (xs : List Instruction) : Prop where
  expand : t.expandAll n (is.map t.element) = some xs
  once : (is.flatMap fun i => t.gatesAt n (t.element i)).Nodup
  gates : ∀ i ∈ is, ∀ k ∈ t.gatesAt n (t.element i), m ≤ k

theorem Unshared.nil (m : Nat) (t : Store) (n : Nat) : Unshared m t n [] [] :=
  ⟨rfl, nodup_nil, forall_mem_nil _⟩

/-- Places below which nothing changes stay as they are. -/
theorem Unshared.congr (h : Unshared m t n is xs) (hsame : ∀ i ∈ is, t.SameBelow u i) : Unshared m u n is xs where
  expand := by
    have helements : is.map u.element = is.map t.element :=
      map_congr_left fun _ hi => (hsame _ hi).element_eq
    rw [helements, ← h.expand]
    refine expandAll_congr fun e he => ?_
    obtain ⟨i, hi, rfl⟩ := List.mem_map.mp he
    rw [← (hsame i hi).expand_eq, (hsame i hi).element_eq]
  once := by
    rw [flatMap_congr fun _ hi => (hsame _ hi).gatesAt_eq n]
    exact h.once
  gates i hi k hk := h.gates i hi k ((hsame i hi).gatesAt_eq n ▸ hk)

theorem expandAll_append {es' : List Element} (h : s.expandAll n es = some xs) (h' : s.expandAll n es' = some ys) :
    s.expandAll n (es ++ es') = some (xs ++ ys) := by
  obtain ⟨parts, hparts, rfl⟩ := expandAll_eq_some.mp h
  obtain ⟨parts', hparts', rfl⟩ := expandAll_eq_some.mp h'
  exact expandAll_eq_some.mpr ⟨parts ++ parts', rel_append hparts hparts', flatten_append⟩

/-- Places that came one after the other have no gates in common. -/
theorem Unshared.append {m' : Nat} (h : Unshared m t n is xs) (h' : Unshared m' t n js ys) (hm : m ≤ m')
    (hlt : ∀ i ∈ is, ∀ k, ReflTransGen t.Contains i k → k < m') : Unshared m t n (is ++ js) (xs ++ ys) where
  expand := by
    rw [map_append]
    exact expandAll_append h.expand h'.expand
  once := by
    rw [flatMap_append]
    refine nodup_append'.mpr ⟨h.once, h'.once, fun k hk hk' => ?_⟩
    obtain ⟨i, hi, hik⟩ := List.mem_flatMap.mp hk
    obtain ⟨j, hj, hjk⟩ := List.mem_flatMap.mp hk'
    exact Nat.lt_irrefl k (Nat.lt_of_lt_of_le (hlt i hi k (reach_of_mem_gatesAt hik)) (h'.gates j hj k hjk))
  gates := List.forall_mem_append.mpr ⟨h.gates, fun i hi k hk => hm.trans (h'.gates i hi k hk)⟩

/-- An instruction without a body holds no gates. -/
theorem Unshared.leaf (hx : t.instruction? i = some x) (hleaf : x.isComposite = false) (m n : Nat) :
    Unshared m t n [i] [x] where
  expand := by
    rw [map_singleton, element_of_leaf hx hleaf]
    exact expandAll_eq_some.mpr ⟨[[x]], .cons (expand_leaf t n x) .nil, rfl⟩
  once := by
    rw [flatMap_singleton, element_of_leaf hx hleaf, gatesAt_leaf]
    exact nodup_nil
  gates j hj k hk := by
    rw [List.mem_singleton.mp hj, element_of_leaf hx hleaf, gatesAt_leaf] at hk
    exact absurd hk not_mem_nil

/-- A gate around places is a place, if it does not stand below them. -/
theorem Unshared.gate {name : String} {flag : Bool} (hx : t.instruction? i = some x)
    (hop : x.operation = .composite name is flag) (hm : m ≤ i) (h : Unshared m t n is xs)
    (hi : ∀ j ∈ is, ¬ ReflTransGen t.Contains j i) : Unshared m t (n + 1) [i] xs where
  expand := by
    rw [map_singleton, element_of_composite hx hop]
    refine expandAll_eq_some.mpr ⟨[xs], .cons ?_ .nil, append_nil xs⟩
    rw [expand_gate (face_of_composite hx hop)]
    exact h.expand
  once := by
    rw [flatMap_singleton, element_of_composite hx hop, gatesAt_gate (face_of_composite hx hop),
      flatMap_map, nodup_cons]
    refine ⟨fun hmem => ?_, h.once⟩
    obtain ⟨j, hj, hij⟩ := List.mem_flatMap.mp hmem
    exact hi j hj (reach_of_mem_gatesAt hij)
  gates j hj k hk := by
    rw [List.mem_singleton.mp hj, element_of_composite hx hop, gatesAt_gate (face_of_composite hx hop),
      flatMap_map, mem_cons, mem_flatMap] at hk
    rcases hk with rfl | ⟨l, hl, hk⟩
    · exact hm
    · exact h.gates l hl k hk

/-- Besides, all that stands below the places is new. -/
structure Fresh (m : Nat) (t : Store) (n : Nat) (is : List InstructionId) (xs : List Instruction) : Prop extends
    Unshared m t n is xs where
  new : ∀ i ∈ is, ∀ k, ReflTransGen t.Contains i k → m ≤ k

theorem Fresh.nil (m : Nat) (t : Store) (n : Nat) : Fresh m t n [] [] :=
  ⟨.nil m t n, forall_mem_nil _⟩

theorem Fresh.congr (h : Fresh m t n is xs) (hsame : ∀ i ∈ is, t.SameBelow u i) : Fresh m u n is xs :=
  ⟨h.toUnshared.congr hsame, fun i hi k hik => h.new i hi k ((hsame i hi).reach hik)⟩

theorem Fresh.append {m' : Nat} (h : Fresh m t n is xs) (h' : Fresh m' t n js ys) (hm : m ≤ m')
    (hlt : ∀ i ∈ is, ∀ k, ReflTransGen t.Contains i k → k < m') : Fresh m t n (is ++ js) (xs ++ ys) := by
  refine ⟨h.toUnshared.append h'.toUnshared hm hlt, List.forall_mem_append.mpr ⟨h.new, fun i hi k hik => ?_⟩⟩
  exact hm.trans (h'.new i hi k hik)

/-- An instruction without a body is a place of its own. -/
theorem Fresh.leaf (hx : t.instruction? i = some x) (hleaf : x.isComposite = false) (hm : m ≤ i) (n : Nat) :
    Fresh m t n [i] [x] := by
  refine ⟨.leaf hx hleaf m n, fun j hj k hjk => ?_⟩
  rw [List.mem_singleton.mp hj] at hjk
  rcases ReflTransGen.cases_head hjk with rfl | ⟨l, ⟨y, hy, hl⟩, -⟩
  · exact hm
  · cases hx.symm.trans hy
    rw [inside_of_leaf hleaf] at hl
    exact absurd hl not_mem_nil

theorem Fresh.gate {name : String} {flag : Bool} (hx : t.instruction? i = some x)
    (hop : x.operation = .composite name is flag) (hm : m ≤ i) (h : Fresh m t n is xs)
    (hi : ∀ j ∈ is, ¬ ReflTransGen t.Contains j i) : Fresh m t (n + 1) [i] xs := by
  refine ⟨h.toUnshared.gate hx hop hm hi, fun j hj k hjk => ?_⟩
  rw [List.mem_singleton.mp hj] at hjk
  rcases ReflTransGen.cases_head hjk with rfl | ⟨l, ⟨y, hy, hl⟩, hlk⟩
  · exact hm
  · cases hx.symm.trans hy
    rw [Instruction.inside, hop] at hl
    exact h.new l hl k hlk

/-! ## Circuits of new places -/

theorem expandAll_unique (h : s.expandAll n es = some xs) (h' : s.expandAll m es = some ys) : xs = ys :=
  Option.some.inj ((expandAll_mono h (Nat.le_max_left n m)).symm.trans (expandAll_mono h' (Nat.le_max_right n m)))

/-- How deep a look goes does not matter for what a circuit is once it is flattened. -/
theorem flattened_of_expandAll (hs : s.Sound lib lost loose) {c : CircuitId} {d : Circuit} (hd : s.circuit? c = some d)
    (h : s.expandAll n (d.data.map s.element) = some xs) : s.flattened c = some xs := by
  have hnests : ∀ y, s.circuit? c = some y → ∀ i ∈ y.data, s.Nests (fun _ => True) n (s.element i) := by
    intro y hy i hi
    cases hd.symm.trans hy
    obtain ⟨part, hpart, -⟩ := forall_of_expandAll h (fun _ _ => trivial) _ (mem_map_of_mem hi)
    exact nests_of_expand hpart fun _ _ => trivial
  have hsize : ∀ e ∈ d.data.map s.element, s.Nests (fun _ => True) s.instructions.size e := by
    intro e he
    obtain ⟨i, hi, rfl⟩ := List.mem_map.mp he
    exact nests_of_isNested hs (isNested_of_nests hnests) (.data hd hi) fun _ _ _ _ _ => trivial
  obtain ⟨ys, hys, -⟩ := expandAll_of_nests hsize
  rw [flattened_of_some hd, hys, expandAll_unique h hys]

theorem gatesAt_sublist (s : Store) (e : Element) : (s.gatesAt n e).Sublist (s.gatesAt (n + 1) e) := by
  induction n generalizing e with
  | zero =>
    cases e with
    | leaf x => exact .refl _
    | gate i => exact nil_sublist _
  | succ n ih =>
    cases e with
    | leaf x => exact .refl _
    | gate i =>
      cases hF : s.face i with
      | none =>
        rw [gatesAt, hF]
        exact nil_sublist _
      | some F =>
        rw [gatesAt_gate hF, gatesAt_gate hF]
        exact .cons_cons i (List.Sublist.flatMap_right F.elements fun e _ => ih e)

theorem gatesAt_sublist_of_le (s : Store) (e : Element) (h : n ≤ m) : (s.gatesAt n e).Sublist (s.gatesAt m e) := by
  induction h with
  | refl => exact .refl _
  | step _ ih => exact ih.trans (gatesAt_sublist s e)

/-- No gate stands twice below places that share none, however deep a look goes. -/
theorem Unshared.nodup_gatesAt {l : Nat} (h : Unshared l t n is xs) (m : Nat) :
    (is.flatMap fun i => t.gatesAt m (t.element i)).Nodup := by
  rcases Nat.le_total m n with hmn | hnm
  · exact h.once.sublist (List.Sublist.flatMap_right is fun i _ => t.gatesAt_sublist_of_le _ hmn)
  · have heq : ∀ i ∈ is, t.gatesAt m (t.element i) = t.gatesAt n (t.element i) := by
      intro i hi
      obtain ⟨part, hpart, -⟩ := forall_of_expandAll (P := fun _ => True) h.expand (fun _ _ => trivial) _
        (mem_map_of_mem hi)
      exact (nests_of_expand (P := fun _ => True) hpart fun _ _ => trivial).gatesAt_eq hnm
    rw [flatMap_congr heq]
    exact h.once

end QasmCircuit.Store
