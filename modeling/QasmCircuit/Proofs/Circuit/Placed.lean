import QasmCircuit.Proofs.Circuit.Fresh

/-!
# What building adds

To build is to add new instructions and to put some of them at the end of a container; all that was there before stays
as it is (`Store.Filled`). What was added is known by what it is once it is flattened (`Store.Placed`): it holds
instructions that are new since a number, and it is nested to at most as many levels as there are new ones.

Both together say what a step builds (`Store.Builds`), and the steps of a run add up (`Store.Builds.trans`).
-/

namespace QasmCircuit

open Relation List

variable {x : Instruction} {s : Store} {i : InstructionId} {name : String} {inverted : Bool}

namespace Instruction

/-- A gate with more members at the end of its body; no other instruction takes any. -/
def extended (x : Instruction) (is : List InstructionId) : Instruction :=
  match x.operation with
  | .composite name body inverted => { x with operation := .composite name (body ++ is) inverted }
  | _ => x

theorem extended_of_composite {body : List InstructionId}
    (hop : x.operation = .composite name body inverted) (is : List InstructionId) :
    x.extended is = { x with operation := .composite name (body ++ is) inverted } := by
  rw [extended, hop]

theorem extended_of_leaf (hleaf : x.isComposite = false) (is : List InstructionId) : x.extended is = x := by
  unfold extended
  split
  · next hop => exact absurd_leaf hleaf hop
  · rfl

@[simp] theorem extended_nil (x : Instruction) : x.extended [] = x := by
  cases hx : x.isComposite with
  | false => exact extended_of_leaf hx []
  | true =>
    obtain ⟨name, body, inverted, hop⟩ := Store.isComposite_iff.mp hx
    rw [extended_of_composite hop, append_nil, ← hop]

@[simp] theorem extended_extended (x : Instruction) (is js : List InstructionId) :
    (x.extended is).extended js = x.extended (is ++ js) := by
  cases hx : x.isComposite with
  | false => rw [extended_of_leaf hx, extended_of_leaf hx, extended_of_leaf hx]
  | true =>
    obtain ⟨name, body, inverted, hop⟩ := Store.isComposite_iff.mp hx
    rw [extended_of_composite hop, extended_of_composite hop, extended_of_composite rfl, append_assoc]

theorem extended_circuit (x : Instruction) (is : List InstructionId) : (x.extended is).circuit = x.circuit := by
  unfold extended
  split <;> rfl

theorem extended_args (x : Instruction) (is : List InstructionId) : (x.extended is).args = x.args := by
  unfold extended
  split <;> rfl

theorem extended_isComposite (x : Instruction) (is : List InstructionId) :
    (x.extended is).isComposite = x.isComposite := by
  cases hx : x.isComposite with
  | false => rw [extended_of_leaf hx, hx]
  | true =>
    obtain ⟨name, body, inverted, hop⟩ := Store.isComposite_iff.mp hx
    rw [extended_of_composite hop]
    rfl

end Instruction

namespace Container

/-- What a gate gets of the members that a container gets. -/
def forGate (i : InstructionId) (is : List InstructionId) : Container → List InstructionId
  | .gate j => if j = i then is else []
  | .circuit _ => []

/-- What a circuit gets of the members that a container gets. -/
def forCircuit (c : CircuitId) (is : List InstructionId) : Container → List InstructionId
  | .circuit d => if d = c then is else []
  | .gate _ => []

variable (k : Container)

theorem forGate_append (i : InstructionId) (is js : List InstructionId) :
    k.forGate i (is ++ js) = k.forGate i is ++ k.forGate i js := by
  cases k with
  | circuit c => rfl
  | gate j =>
    by_cases hj : j = i
    · simp only [forGate, if_pos hj]
    · simp only [forGate, if_neg hj, append_nil]

theorem forCircuit_append (c : CircuitId) (is js : List InstructionId) :
    k.forCircuit c (is ++ js) = k.forCircuit c is ++ k.forCircuit c js := by
  cases k with
  | gate j => rfl
  | circuit d =>
    by_cases hd : d = c
    · simp only [forCircuit, if_pos hd]
    · simp only [forCircuit, if_neg hd, append_nil]

@[simp] theorem forGate_nil (i : InstructionId) : k.forGate i [] = [] := by
  cases k <;> simp only [forGate, ite_self]

@[simp] theorem forCircuit_nil (c : CircuitId) : k.forCircuit c [] = [] := by
  cases k <;> simp only [forCircuit, ite_self]

/-- A container that is there already takes nothing away from what is new. -/
def IsOld (s : Store) : Container → Prop
  | .circuit _ => True
  | .gate i => i < s.instructions.size

theorem IsOld.forGate_eq_nil {k : Container} (hk : k.IsOld s)
    (hi : s.instructions.size ≤ i) (is : List InstructionId) : k.forGate i is = [] := by
  cases k with
  | circuit c => rfl
  | gate j => exact if_neg (Nat.ne_of_lt (Nat.lt_of_lt_of_le hk hi))

end Container

namespace Store

variable {t u : Store} {k : Container} {is js : List InstructionId} {m : Nat} {xs ys : List Instruction}
  {P : Instruction → Prop}

/-! ## What stays as it is -/

/-- A store has more instructions, and a container has some more members; all else is as it was. -/
structure Filled (k : Container) (is : List InstructionId) (s t : Store) : Prop where
  size_le : s.instructions.size ≤ t.instructions.size
  old : ∀ i x, s.instruction? i = some x → t.instruction? i = some (x.extended (k.forGate i is))
  circuits : ∀ c d, s.circuit? c = some d → t.circuit? c = some { d with data := d.data ++ k.forCircuit c is }

theorem Filled.of_adds (h : s.Adds t) (hcircuits : ∀ c d, s.circuit? c = some d → t.circuit? c = some d)
    (k : Container) : Filled k [] s t where
  size_le := h.size_le
  old i x hx := by
    rw [Container.forGate_nil, Instruction.extended_nil, h.old i (instruction?_lt hx), hx]
  circuits c d hd := by
    rw [Container.forCircuit_nil, append_nil]
    exact hcircuits c d hd

theorem Filled.refl (k : Container) (s : Store) : Filled k [] s s := .of_adds (.refl s) (fun _ _ hd => hd) k

theorem Filled.trans (h : Filled k is s t) (h' : Filled k js t u) : Filled k (is ++ js) s u where
  size_le := h.size_le.trans h'.size_le
  old i x hx := by
    rw [h'.old i _ (h.old i x hx), Instruction.extended_extended, k.forGate_append]
  circuits c d hd := by
    rw [h'.circuits c _ (h.circuits c d hd), k.forCircuit_append, append_assoc]

/-- What is new may be changed afterwards. -/
theorem Filled.congr (h : Filled k is s t) (hsize : t.instructions.size ≤ u.instructions.size)
    (hold : ∀ i, i < s.instructions.size → u.instruction? i = t.instruction? i)
    (hcircuits : ∀ c d, t.circuit? c = some d → u.circuit? c = some d) : Filled k is s u where
  size_le := h.size_le.trans hsize
  old i x hx := by
    rw [hold i (instruction?_lt hx)]
    exact h.old i x hx
  circuits c d hd := hcircuits c _ (h.circuits c d hd)

/-- What is new to a container stays as it is when the container is filled. -/
theorem Filled.same (h : Filled k js t u) (hk : k.IsOld s) (hi : s.instructions.size ≤ i)
    (hlt : i < t.instructions.size) : u.instruction? i = t.instruction? i := by
  obtain ⟨x, hx⟩ : ∃ x, t.instruction? i = some x := ⟨_, Array.getElem?_eq_getElem hlt⟩
  rw [h.old i x hx, hk.forGate_eq_nil hi, Instruction.extended_nil, hx]

/-! ## What is new -/

theorem Unshared.mono {n l : Nat} (h : Unshared m t n is xs) (hnl : n ≤ l) : Unshared m t l is xs where
  expand := expandAll_mono h.expand hnl
  once := h.nodup_gatesAt l
  gates i hi j hj := by
    obtain ⟨part, hpart, -⟩ := forall_of_expandAll (P := fun _ => True) h.expand (fun _ _ => trivial) _
      (mem_map_of_mem hi)
    rw [(nests_of_expand (P := fun _ => True) hpart fun _ _ => trivial).gatesAt_eq hnl] at hj
    exact h.gates i hi j hj

/-- Some places hold what is new since a number, and nothing else. All instructions there satisfy `P`. -/
structure Placed (P : Instruction → Prop) (m : Nat) (t : Store) (is : List InstructionId) (xs : List Instruction) :
    Prop extends Fresh m t (t.instructions.size - m) is xs where
  below : ∀ i ∈ is, ∀ j, ReflTransGen t.Contains i j → ∃ x, t.instruction? j = some x ∧ P x

theorem Placed.nil (P : Instruction → Prop) (m : Nat) (t : Store) : Placed P m t [] [] :=
  ⟨.nil m t _, forall_mem_nil _⟩

theorem Placed.leaf (hx : t.instruction? i = some x) (hleaf : x.isComposite = false) (hP : P x) (hm : m ≤ i) :
    Placed P m t [i] [x] := by
  refine ⟨.leaf hx hleaf hm _, fun j hj l hjl => ?_⟩
  rw [mem_singleton.mp hj] at hjl
  rcases ReflTransGen.cases_head hjl with rfl | ⟨j', ⟨y, hy, hj'⟩, -⟩
  · exact ⟨x, hx, hP⟩
  · cases hx.symm.trans hy
    rw [inside_of_leaf hleaf] at hj'
    exact absurd hj' not_mem_nil

/-- What is new stays in place as long as nothing of it is changed. -/
theorem Placed.congr (h : Placed P m t is xs) (hsize : t.instructions.size ≤ u.instructions.size)
    (hsame : ∀ i, m ≤ i → i < t.instructions.size → u.instruction? i = t.instruction? i) : Placed P m u is xs := by
  have hbelow : ∀ i ∈ is, t.SameBelow u i := by
    intro i hi j hij
    obtain ⟨x, hx, -⟩ := h.below i hi j hij
    exact hsame j (h.new i hi j hij) (instruction?_lt hx)
  have hfresh := h.toFresh.congr hbelow
  have hlevels : t.instructions.size - m ≤ u.instructions.size - m := Nat.sub_le_sub_right hsize m
  refine ⟨⟨hfresh.toUnshared.mono hlevels, hfresh.new⟩, fun i hi j hij => ?_⟩
  have hij' := (hbelow i hi).reach hij
  obtain ⟨x, hx, hP⟩ := h.below i hi j hij'
  exact ⟨x, (hbelow i hi j hij').trans hx, hP⟩

/-- What came later has nothing in common with what was there. -/
theorem Placed.append (h : Placed P m t is xs) (h' : Placed P t.instructions.size u js ys)
    (hm : m ≤ t.instructions.size) (hsize : t.instructions.size ≤ u.instructions.size)
    (hsame : ∀ i, m ≤ i → i < t.instructions.size → u.instruction? i = t.instruction? i) :
    Placed P m u (is ++ js) (xs ++ ys) := by
  have hfirst := h.congr hsize hsame
  have hlevels : u.instructions.size - t.instructions.size ≤ u.instructions.size - m := Nat.sub_le_sub_left hm _
  refine ⟨hfirst.toFresh.append ⟨h'.toUnshared.mono hlevels, h'.new⟩ hm fun i hi j hij => ?_,
    forall_mem_append.mpr ⟨hfirst.below, h'.below⟩⟩
  have hbelow : t.SameBelow u i := by
    intro l hil
    obtain ⟨x, hx, -⟩ := h.below i hi l hil
    exact hsame l (h.new i hi l hil) (instruction?_lt hx)
  obtain ⟨x, hx, -⟩ := h.below i hi j (hbelow.reach hij)
  exact instruction?_lt hx

/-- A gate with what is new since it was made. -/
theorem Placed.gate (hx : t.instruction? m = some x)
    (hop : x.operation = .composite name is inverted) (hP : P x) (h : Placed P (m + 1) t is xs) :
    Placed P m t [m] xs := by
  have hlt : m < t.instructions.size := instruction?_lt hx
  have hlevels : t.instructions.size - (m + 1) + 1 = t.instructions.size - m := by omega
  have hunshared : Unshared m t (t.instructions.size - (m + 1)) is xs :=
    ⟨h.expand, h.once, fun i hi j hj => Nat.le_of_succ_le (h.gates i hi j hj)⟩
  have hfresh : Fresh m t (t.instructions.size - (m + 1)) is xs :=
    ⟨hunshared, fun i hi j hij => Nat.le_of_succ_le (h.new i hi j hij)⟩
  have hgate := hfresh.gate hx hop (Nat.le_refl m) fun i hi him => Nat.lt_irrefl m (h.new i hi m him)
  rw [hlevels] at hgate
  refine ⟨hgate, fun i hi j hij => ?_⟩
  rw [mem_singleton.mp hi] at hij
  rcases ReflTransGen.cases_head hij with rfl | ⟨l, ⟨y, hy, hl⟩, hlj⟩
  · exact ⟨x, hx, hP⟩
  · cases hx.symm.trans hy
    rw [Instruction.inside, hop] at hl
    exact h.below l hl j hlj

/-! ## What a step builds -/

/-- A step fills a container with what is new, which is some instructions once it is flattened. -/
def Builds (P : Instruction → Prop) (k : Container) (xs : List Instruction) (s t : Store) : Prop :=
  ∃ is, Filled k is s t ∧ Placed P s.instructions.size t is xs

theorem Builds.refl (P : Instruction → Prop) (k : Container) (s : Store) : Builds P k [] s s :=
  ⟨[], .refl k s, .nil P _ s⟩

theorem Builds.trans (h : Builds P k xs s t) (h' : Builds P k ys t u) (hk : k.IsOld s) : Builds P k (xs ++ ys) s u := by
  obtain ⟨is, hst, hplaced⟩ := h
  obtain ⟨js, htu, hplaced'⟩ := h'
  exact ⟨is ++ js, hst.trans htu, hplaced.append hplaced' hst.size_le htu.size_le fun _ hi hlt => htu.same hk hi hlt⟩

end Store

end QasmCircuit
