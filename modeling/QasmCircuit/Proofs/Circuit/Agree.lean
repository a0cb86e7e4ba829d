import QasmCircuit.Circuit.Declaration
import QasmCircuit.Proofs.Circuit.Graph

/-!
# Circuits that look alike

Two stores agree on a circuit if the same stands at all its places: gates with a body under the same numbers, and
equal instructions at the ends. The numbers of the instructions without a body may differ, and so may how deep a
look is allowed to go. The text of the circuit and its program are then the same (`Action.related_circuitText`,
`Action.related_toProgram`).
-/

namespace QasmCircuit

open Outcome List

variable {α : Type} {s u : Store} {c : CircuitId} {i j : InstructionId} {is js : List InstructionId}

/-! ## Steps that look at two stores -/

namespace Action

variable {β γ δ : Type}

/-- Two results match: both are values that are related, or both are the same fault. -/
def Match (R : α → β → Prop) : Except Fault α → Except Fault β → Prop
  | .ok v, .ok w => R v w
  | .error e, .error e' => e = e'
  | _, _ => False

/-- Two steps only look at their stores, and their results match. -/
def Related (R : α → β → Prop) (a : Action α) (s : Store) (b : Action β) (u : Store) : Prop :=
  ∃ r r', a.outcome s = (r, s) ∧ b.outcome u = (r', u) ∧ Match R r r'

variable {R : α → β → Prop} {S : γ → δ → Prop} {a : Action α}

theorem related_pure {v : α} {w : β} (h : R v w) : Related R (pure v) s (pure w) u := ⟨.ok v, .ok w, rfl, rfl, h⟩

theorem related_throw {e : Fault} : Related R (throw e) s (throw e) u := ⟨.error e, .error e, rfl, rfl, rfl⟩

theorem related_fail {p : Problem} : Related R (fail p) s (fail p) u := related_throw

theorem related_lift {x : Except Fault α} : Related Eq (lift x) s (lift x) u := by
  cases x with
  | ok v => exact related_pure rfl
  | error e => exact related_throw

variable {f : α → Action γ}

theorem Related.bind {b : Action β} {g : β → Action δ} (h : Related R a s b u)
    (hfg : ∀ v w, R v w → Related S (f v) s (g w) u) : Related S (a >>= f) s (b >>= g) u := by
  obtain ⟨r, r', hr, hr', hmatch⟩ := h
  cases r with
  | ok v =>
    cases r' with
    | ok w =>
      obtain ⟨q, q', hq, hq', hqq⟩ := hfg v w hmatch
      exact ⟨q, q', by rw [outcome_bind, hr]; exact hq, by rw [outcome_bind, hr']; exact hq', hqq⟩
    | error e => exact hmatch.elim
  | error e =>
    cases r' with
    | ok w => exact hmatch.elim
    | error e' => exact ⟨.error e, .error e', by rw [outcome_bind, hr], by rw [outcome_bind, hr'], hmatch⟩

theorem related_bind_eq {b : Action α} {g : α → Action δ} (h : Related Eq a s b u)
    (hfg : ∀ v, Related S (f v) s (g v) u) : Related S (a >>= f) s (b >>= g) u :=
  h.bind fun v _ hvw => hvw ▸ hfg v

theorem Related.result_eq {b : Action α} (h : Related Eq a s b u) : (b.outcome u).1 = (a.outcome s).1 := by
  obtain ⟨r, r', hr, hr', hmatch⟩ := h
  rw [hr, hr']
  cases r with
  | ok v =>
    cases r' with
    | ok w => exact congrArg Except.ok (Eq.symm hmatch)
    | error e => exact hmatch.elim
  | error e =>
    cases r' with
    | ok w => exact hmatch.elim
    | error e' => exact congrArg Except.error (Eq.symm hmatch)

theorem related_instruction {x y : Instruction} {f : Instruction → Action γ}
    {g : Instruction → Action δ} (hx : s.instruction? i = some x) (hy : u.instruction? j = some y)
    (h : Related S (f x) s (g y) u) : Related S (instruction i >>= f) s (instruction j >>= g) u := by
  refine Related.bind (R := fun v w => v = x ∧ w = y)
    ⟨.ok x, .ok y, returns_instruction hx, returns_instruction hy, rfl, rfl⟩ ?_
  rintro _ _ ⟨rfl, rfl⟩
  exact h

theorem related_circuit {d : CircuitId} {x y : Circuit} {f : Circuit → Action γ} {g : Circuit → Action δ}
    (hx : s.circuit? c = some x) (hy : u.circuit? d = some y) (h : Related S (f x) s (g y) u) :
    Related S (circuit c >>= f) s (circuit d >>= g) u := by
  refine Related.bind (R := fun v w => v = x ∧ w = y)
    ⟨.ok x, .ok y, returns_circuit hx, returns_circuit hy, rfl, rfl⟩ ?_
  rintro _ _ ⟨rfl, rfl⟩
  exact h

theorem related_depth {f : Nat → Action γ} {g : Nat → Action δ}
    (h : Related S (f (s.instructions.size + 1)) s (g (u.instructions.size + 1)) u) :
    Related S (depth >>= f) s (depth >>= g) u := by
  refine Related.bind (R := fun n m => n = s.instructions.size + 1 ∧ m = u.instructions.size + 1)
    ⟨_, _, rfl, rfl, rfl, rfl⟩ ?_
  rintro _ _ ⟨rfl, rfl⟩
  exact h

theorem related_mapM {κ : Type} {Q : γ → δ → Prop} {as : List γ} {bs : List δ} (h : Forall₂ Q as bs)
    {f : γ → Action κ} {g : δ → Action κ} (hfg : ∀ a b, a ∈ as → Q a b → Related Eq (f a) s (g b) u) :
    Related Eq (as.mapM f) s (bs.mapM g) u := by
  induction h with
  | nil => exact related_pure rfl
  | cons hab _ ih =>
    rw [mapM_cons, mapM_cons]
    refine related_bind_eq (hfg _ _ mem_cons_self hab) fun v => ?_
    refine related_bind_eq (ih fun a b ha => hfg a b (mem_cons_of_mem _ ha)) fun vs => related_pure rfl

end Action

/-! ## Stores that agree -/

namespace Store

/-- Two stores agree on a circuit. -/
structure Agree (s u : Store) (c : CircuitId) : Prop where
  closed : ∀ i x, s.instruction? i = some x → ∀ j ∈ x.inside, j < s.instructions.size
  closed' : ∀ i x, u.instruction? i = some x → ∀ j ∈ x.inside, j < u.instructions.size
  home : ∀ i x, s.Within c i → s.instruction? i = some x → x.circuit = c
  face : ∀ i F, s.Within c i → s.face i = some F → u.face i = some F
  circuit : ∃ x y, s.circuit? c = some x ∧ u.circuit? c = some y ∧ y.library = x.library ∧
    y.registers = x.registers ∧ x.data.map s.element = y.data.map u.element
  data : ∀ x, s.circuit? c = some x → ∀ i ∈ x.data, i < s.instructions.size
  data' : ∀ x, u.circuit? c = some x → ∀ i ∈ x.data, i < u.instructions.size

/-- The same stands at two places. -/
structure Alike (s u : Store) (c : CircuitId) (i j : InstructionId) : Prop where
  within : s.Within c i
  lt : i < s.instructions.size
  lt' : j < u.instructions.size
  element : s.element i = u.element j

theorem forall₂_alike (hin : ∀ i ∈ is, s.Within c i ∧ i < s.instructions.size)
    (hjs : ∀ j ∈ js, j < u.instructions.size) (h : is.map s.element = js.map u.element) :
    Forall₂ (Alike s u c) is js := by
  induction is generalizing js with
  | nil =>
    cases js with
    | nil => exact .nil
    | cons j js => cases h
  | cons i is ih =>
    cases js with
    | nil => cases h
    | cons j js =>
      rw [map_cons, map_cons, List.cons.injEq] at h
      rw [forall_mem_cons] at hin hjs
      exact .cons ⟨hin.1.1, hin.1.2, hjs.1, h.1⟩ (ih hin.2 hjs.2 h.2)

/-- What stands at two places where the same stands: equal instructions without a body, or one gate, of which the
bodies hold the same. -/
theorem Agree.cases (h : s.Agree u c) (hij : s.Alike u c i j) : ∃ x y, s.instruction? i = some x ∧
    u.instruction? j = some y ∧ ((x = y ∧ x.isComposite = false ∧ s.element i = .leaf x) ∨
      (i = j ∧ s.element i = .gate i ∧ ∃ name body body' flag, x.operation = .composite name body flag ∧
        y = { x with operation := .composite name body' flag } ∧ Forall₂ (s.Alike u c) body body')) := by
  obtain ⟨x, hx⟩ : ∃ x, s.instruction? i = some x := ⟨_, Array.getElem?_eq_getElem hij.lt⟩
  obtain ⟨y, hy⟩ : ∃ y, u.instruction? j = some y := ⟨_, Array.getElem?_eq_getElem hij.lt'⟩
  refine ⟨x, y, hx, hy, ?_⟩
  rcases element_cases hx with ⟨F, hF, hgate⟩ | ⟨hleaf, helement⟩
  · refine .inr ?_
    rcases element_cases hy with ⟨G, hG, hgate'⟩ | ⟨-, helement'⟩
    · obtain rfl : i = j := Element.gate.inj (hgate.symm.trans (hij.element.trans hgate'))
      obtain rfl : F = G := Option.some.inj ((h.face i F hij.within hF).symm.trans hG)
      obtain ⟨x', name, body, flag, hx', hop, rfl⟩ := exists_of_face hF
      obtain ⟨y', name', body', flag', hy', hop', heq⟩ := exists_of_face hG
      cases hx.symm.trans hx'
      cases hy.symm.trans hy'
      refine ⟨rfl, hgate, name, body, body', flag, hop, eq_of_head hop' (congrArg Face.head heq), ?_⟩
      have hclosed := h.closed i x hx
      have hclosed' := h.closed' i y hy
      rw [Instruction.inside, hop'] at hclosed'
      have hinside : x.inside = body := by rw [Instruction.inside, hop]
      rw [hinside] at hclosed
      exact forall₂_alike (fun k hk => ⟨hij.within.inside ⟨x, hx, hinside ▸ hk⟩, hclosed k hk⟩) hclosed'
        (congrArg Face.elements heq)
    · cases hgate.symm.trans (hij.element.trans helement')
  · refine .inl ⟨?_, hleaf, helement⟩
    rcases element_cases hy with ⟨G, hG, hgate'⟩ | ⟨-, helement'⟩
    · cases helement.symm.trans (hij.element.trans hgate')
    · exact Element.leaf.inj (helement.symm.trans (hij.element.trans helement'))

theorem Agree.alike_data (h : s.Agree u c) {x y : Circuit} (hx : s.circuit? c = some x) (hy : u.circuit? c = some y)
    (hdata : x.data.map s.element = y.data.map u.element) : Forall₂ (s.Alike u c) x.data y.data :=
  forall₂_alike (fun i hi => ⟨.data hx hi, h.data x hx i hi⟩) (h.data' y hy) hdata

end Store

/-! ## Texts -/

namespace Action

variable {P : Instruction → Prop} {n N M : Nat} {x gate : Instruction}

/-- The library is all of a circuit that the controlled form of a gate depends on. -/
theorem controlledFamily_congr {x y : Circuit} (h : y.library = x.library) (gate : String) (total n : Nat)
    (f : Family) : controlledFamily x gate total n f = controlledFamily y gate total n f := by
  induction n generalizing f with
  | zero => rfl
  | succ n ih =>
    rw [controlledFamily, controlledFamily, h]
    cases f.controlled with
    | none => rfl
    | some name => exact congrArg _ (funext ih)

theorem related_writtenName (h : s.Agree u c) (hx : x.circuit = c) (f : Family) :
    Related Eq (writtenName x f) s (writtenName x f) u := by
  obtain ⟨d, d', hd, hd', hlibrary, -⟩ := h.circuit
  refine related_circuit (hx ▸ hd) (hx ▸ hd') ?_
  dsimp only
  rw [controlledFamily_congr hlibrary]
  exact related_bind_eq related_lift fun g => related_pure rfl

theorem related_leafText (h : s.Agree u c) (hc : x.circuit = c) (hx : s.instruction? i = some x)
    (hy : u.instruction? j = some x) (hleaf : x.isComposite = false) :
    Related Eq (instructionText (N + 1) i) s (instructionText (M + 1) j) u := by
  rw [instructionText, instructionText]
  refine related_instruction hx hy ?_
  cases hop : x.operation with
  | atomic f =>
    refine related_bind_eq (related_writtenName h hc f) fun name => ?_
    exact related_bind_eq related_lift fun text => related_bind_eq related_lift fun _ => related_pure rfl
  | barrier => exact related_pure rfl
  | measure => exact related_bind_eq related_lift fun _ => related_pure rfl
  | composite name body flag => exact absurd_leaf hleaf hop

theorem related_instructionText (h : s.Agree u c) (hij : s.Alike u c i j) (hn : s.Nests P n (s.element i))
    (hN : n ≤ N) (hM : n ≤ M) : Related Eq (instructionText (N + 1) i) s (instructionText (M + 1) j) u := by
  induction n generalizing i j N M with
  | zero =>
    obtain ⟨x, y, hx, hy, ⟨rfl, hleaf, -⟩ | ⟨-, hgate, -⟩⟩ := h.cases hij
    · exact related_leafText h (h.home i x hij.within hx) hx hy hleaf
    · rw [hgate] at hn
      exact hn.elim
  | succ n ih =>
    obtain ⟨x, y, hx, hy, ⟨rfl, hleaf, -⟩ | ⟨-, hgate, name, body, body', flag, hop, rfl, hbody⟩⟩ := h.cases hij
    · exact related_leafText h (h.home i x hij.within hx) hx hy hleaf
    · obtain ⟨N, rfl⟩ := Nat.exists_eq_add_one.mpr (Nat.zero_lt_of_lt hN)
      obtain ⟨M, rfl⟩ := Nat.exists_eq_add_one.mpr (Nat.zero_lt_of_lt hM)
      rw [hgate] at hn
      obtain ⟨F, hF, hall⟩ := hn
      obtain rfl := Option.some.inj (hF.symm.trans (Store.face_of_composite hx hop))
      rw [instructionText, instructionText]
      refine related_instruction hx hy ?_
      rw [hop]
      refine related_bind_eq (related_mapM hbody fun a b ha hab => ?_) fun texts => related_pure rfl
      exact ih hab (hall _ (mem_map_of_mem ha)) (Nat.le_of_succ_le_succ hN) (Nat.le_of_succ_le_succ hM)

/-- The text of a circuit is what stands in it. -/
theorem related_circuitText (h : s.Agree u c) (hsize : s.instructions.size ≤ u.instructions.size)
    (hn : ∀ x, s.circuit? c = some x → ∀ i ∈ x.data, s.Nests P s.instructions.size (s.element i)) :
    Related Eq (circuitText c) s (circuitText c) u := by
  obtain ⟨x, y, hx, hy, -, hregs, hdata⟩ := h.circuit
  refine related_circuit hx hy (related_depth ?_)
  rw [hregs]
  refine related_bind_eq (related_mapM (h.alike_data hx hy hdata) fun i j hi hij => ?_) fun texts => related_pure rfl
  exact related_instructionText h hij (hn x hx i hi) (Nat.le_refl _) hsize

/-! ## Programs -/

theorem related_ite {p : Prop} [Decidable p] {a a' b b' : Action α} (ha : Related Eq a s a' u)
    (hb : Related Eq b s b' u) : Related Eq (if p then a else b) s (if p then a' else b') u := by
  split
  · exact ha
  · exact hb

variable {nested nested' : InstructionId → List GateDef → Action (String × List GateDef)} {gate' : Instruction}

theorem related_declareElement_leaf (h : s.Agree u c) (hc : x.circuit = c) (hleaf : x.isComposite = false)
    (operands : List Term) (table : List GateDef) :
    Related Eq (declareElement nested gate i x operands table) s
    (declareElement nested' gate j x operands table) u := by
  unfold declareElement
  cases hop : x.operation with
  | barrier => exact related_pure rfl
  | measure => exact related_throw
  | atomic f =>
    refine related_ite (related_bind_eq related_fail fun _ => ?_) ?_
    all_goals exact related_bind_eq (related_writtenName h hc f) fun name => related_pure rfl
  | composite name body flag => exact absurd_leaf hleaf hop

theorem name_of_body {name : String} {body body' : List InstructionId} {flag : Bool}
    (hop : x.operation = .composite name body flag) :
    { x with operation := .composite name body' flag }.name = x.name := by
  rw [Instruction.name, Instruction.name, hop]

/-- The name and the condition are all of a gate that the statements of its declaration depend on. -/
theorem declareElement_congr (hname : gate'.name = gate.name) (hcondition : gate'.condition = gate.condition)
    (nested : InstructionId → List GateDef → Action (String × List GateDef)) (i : InstructionId) (x : Instruction)
    (operands : List Term) (table : List GateDef) :
    declareElement nested gate' i x operands table = declareElement nested gate i x operands table := by
  unfold declareElement
  rw [hname, hcondition]

section

variable (h : s.Agree u c)

include h

theorem related_declareBody (hname : gate'.name = gate.name) (hcondition : gate'.condition = gate.condition)
    (his : Forall₂ (s.Alike u c) is js)
    (hnested : ∀ k ∈ is, s.Alike u c k k → s.element k = .gate k → ∀ table,
      Related Eq (nested k table) s (nested' k table) u)
    (formals : FormalArgs) (table : List GateDef) :
    Related Eq (declareBody nested gate formals is table) s (declareBody nested' gate' formals js table) u := by
  induction his generalizing table with
  | nil => exact related_pure rfl
  | @cons i j is js hij his ih =>
    rw [forall_mem_cons] at hnested
    rw [declareBody, declareBody, hname]
    obtain ⟨x, y, hx, hy, hcases⟩ := h.cases hij
    refine related_instruction hx hy ?_
    have hbits : y.allBits = x.allBits := by
      rcases hcases with ⟨rfl, -⟩ | ⟨-, -, _, _, _, _, -, rfl, -⟩
      · rfl
      · rfl
    rw [hbits]
    refine related_bind_eq related_lift fun operands => ?_
    rw [declareElement_congr hname hcondition]
    refine related_bind_eq ?_ fun result => related_bind_eq (ih hnested.2 result.2) fun rest => related_pure rfl
    rcases hcases with ⟨rfl, hleaf, -⟩ | ⟨rfl, hgate, name, body, body', flag, hop, rfl, -⟩
    · exact related_declareElement_leaf h (h.home i x hij.within hx) hleaf operands table
    · unfold declareElement
      rw [name_of_body hop, hop]
      refine related_ite (related_bind_eq related_fail fun _ => ?_) ?_
      all_goals exact related_bind_eq (hnested.1 hij hgate table) fun result => related_pure rfl

theorem related_declare (hi : s.Alike u c i i) (hgate : s.element i = .gate i)
    (hn : s.Nests P n (.gate i)) (hN : n ≤ N) (hM : n ≤ M) (table : List GateDef) :
    Related Eq (declare N i table) s (declare M i table) u := by
  induction n generalizing i N M table with
  | zero => exact hn.elim
  | succ n ih =>
    obtain ⟨N, rfl⟩ := Nat.exists_eq_add_one.mpr (Nat.zero_lt_of_lt hN)
    obtain ⟨M, rfl⟩ := Nat.exists_eq_add_one.mpr (Nat.zero_lt_of_lt hM)
    obtain ⟨x, y, hx, hy, ⟨-, -, hleaf⟩ | ⟨-, -, name, body, body', flag, hop, rfl, hbody⟩⟩ := h.cases hi
    · exact nomatch hgate.symm.trans hleaf
    · obtain ⟨F, hF, hall⟩ := hn
      obtain rfl := Option.some.inj (hF.symm.trans (Store.face_of_composite hx hop))
      rw [declare, declare]
      refine related_instruction hx hy ?_
      rw [hop]
      have hname : { x with operation := .composite name body' flag }.name = x.name := name_of_body hop
      refine related_bind_eq (related_declareBody h hname rfl hbody (fun k hk hkk hkgate table => ?_) _ _)
        fun result => ?_
      · have hnk := hall _ (mem_map_of_mem hk)
        rw [hkgate] at hnk
        exact ih hkk hkgate hnk (Nat.le_of_succ_le_succ hN) (Nat.le_of_succ_le_succ hM) table
      · obtain ⟨d, d', hd, hd', hlibrary, -⟩ := h.circuit
        have hhome := h.home i x hi.within hx
        refine related_circuit (hhome ▸ hd) (hhome ▸ hd') ?_
        rw [hlibrary]
        exact related_lift

theorem related_toNode_leaf (hc : x.circuit = c) (hx : s.instruction? i = some x)
    (hy : u.instruction? j = some x) (hleaf : x.isComposite = false) : Related Eq (toNode i) s (toNode j) u := by
  refine related_instruction hx hy ?_
  split
  · exact related_bind_eq (related_writtenName h hc _) fun name => related_pure rfl
  · exact related_pure rfl
  · exact related_pure rfl
  · exact related_throw
  · next hop => exact absurd_leaf hleaf hop

section

variable (hsize : s.instructions.size ≤ u.instructions.size)

include hsize

theorem related_programStatement
    (hij : s.Alike u c i j) (hn : s.Nests P s.instructions.size (s.element i)) (table : List GateDef) :
    Related Eq (programStatement i table) s (programStatement j table) u := by
  obtain ⟨x, y, hx, hy, ⟨rfl, hleaf, -⟩ | ⟨rfl, hgate, name, body, body', flag, hop, rfl, -⟩⟩ := h.cases hij
  · refine related_instruction hx hy ?_
    split
    · next hop => exact absurd_leaf hleaf hop
    · exact related_bind_eq (related_toNode_leaf h (h.home i x hij.within hx) hx hy hleaf) fun node => related_pure rfl
  · refine related_instruction hx hy ?_
    rw [hop]
    rw [hgate] at hn
    refine related_depth ?_
    refine related_bind_eq (related_declare h hij hgate hn (Nat.le_succ _) (Nat.le_succ_of_le hsize) table)
      fun result => ?_
    exact related_pure rfl

theorem related_programBody (his : Forall₂ (s.Alike u c) is js)
    (hn : ∀ i ∈ is, s.Nests P s.instructions.size (s.element i)) (table : List GateDef) :
    Related Eq (programBody is table) s (programBody js table) u := by
  induction his generalizing table with
  | nil => exact related_pure rfl
  | cons hij _ ih =>
    rw [forall_mem_cons] at hn
    refine related_bind_eq (related_programStatement h hsize hij hn.1 table) fun result => ?_
    exact related_bind_eq (ih hn.2 result.2) fun rest => related_pure rfl

/-- The program of a circuit is what stands in it. -/
theorem related_toProgram
    (hn : ∀ x, s.circuit? c = some x → ∀ i ∈ x.data, s.Nests P s.instructions.size (s.element i)) :
    Related Eq (toProgram c) s (toProgram c) u := by
  obtain ⟨x, y, hx, hy, -, hregs, hdata⟩ := h.circuit
  refine related_circuit hx hy ?_
  rw [hregs]
  refine related_bind_eq (related_programBody h hsize (h.alike_data hx hy hdata) (hn x hx) []) fun result => ?_
  exact related_pure rfl

end

end

end Action

end QasmCircuit
