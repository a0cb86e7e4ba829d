import QasmCircuit.Proofs.Circuit.Lines
import QasmCircuit.Proofs.Lowering.Lower

/-!
# Programs with the same circuit

What a program comes to does not depend on what was built before it: only the number of the circuit does
(`Node.expansions?_hosted`). So a program is accepted everywhere or nowhere, and its circuit has the same text
everywhere (`Program.IsAccepted`).

> `Program.IsAccepted.replace`: statements of an accepted program can give up their place to others that come to the
> same.
-/

namespace QasmCircuit

open Outcome List

variable {lib : Library} {regs : List Register} {gates : List GateDef} {xs : List Instruction} {p : Program}
  {e : Effect} {ns ms : List Node} {n : Node} {s t : Store} {name : Option Datum} {c : CircuitId}

/-! ## The circuit of the instructions -/

def Instruction.hosted (home : CircuitId) (x : Instruction) : Instruction := { x with circuit := home }

theorem Instruction.hosted_under (home : CircuitId) (guard : Option Condition) (x : Instruction) :
    (x.under guard).hosted home = (x.hosted home).under guard := by
  cases guard with
  | none => rfl
  | some g =>
    have hsame : (x.hosted home).isBarrier = x.isBarrier := rfl
    rw [under, under, guarded, guarded, hsame]
    cases x.isBarrier <;> rfl

section

variable (home other : CircuitId)

theorem Effect.inside?_hosted {call call' : String → List Float → List Bit → Option (List Instruction)}
    (hcall : ∀ name values bits, call' name values bits = (call name values bits).map
      (List.map (Instruction.hosted other)))
    (env : Tree.Env) (formals : List (String × Bit)) (e : Effect) : e.inside? other call' env formals =
      (e.inside? home call env formals).map (List.map (Instruction.hosted other)) := by
  cases e with
  | apply name params targets =>
    rw [inside?, inside?]
    cases (params.mapM (Term.resolve env)).toOption with
    | none => rfl
    | some values =>
      cases targets.mapM fun t => formals.lookup t.1 with
      | none => rfl
      | some bits => exact hcall name values bits
  | barrier targets =>
    rw [inside?, inside?]
    cases targets.mapM fun t => formals.lookup t.1 with
    | none => rfl
    | some bits =>
      dsimp only [bind, Option.bind]
      split <;> rfl
  | measure qubit clbit => rfl

theorem Program.expansion?_hosted (gates : List GateDef) (name : String) (values : List Float) (bits : List Bit) :
    expansion? lib other gates name values bits =
      (expansion? lib home gates name values bits).map (List.map (Instruction.hosted other)) := by
  induction gates generalizing name values bits with
  | nil =>
    rw [expansion?, expansion?]
    cases lib.find? name with
    | none => rfl
    | some f =>
      dsimp only [bind, Option.bind]
      split <;> rfl
  | cons g earlier ih =>
    rw [expansion?, expansion?]
    split
    · split
      · rw [mapM_eq_map_of_forall (h := List.map (Instruction.hosted other))
          (f := fun n => n.effect?.bind (Effect.inside? home (expansion? lib home earlier) (g.env values)
          (g.args.zip bits)))
          fun n _ => ?_]
        · cases g.body.mapM fun n =>
            n.effect?.bind (Effect.inside? home (expansion? lib home earlier) (g.env values) (g.args.zip bits)) with
          | none => rfl
          | some parts => exact congrArg some map_flatten.symm
        · cases n.effect? with
          | none => rfl
          | some e => exact e.inside?_hosted home other ih _ _
      · rfl
    · exact ih name values bits

theorem Effect.outside?_hosted (regs : List Register) (gates : List GateDef) (guard : Option Condition)
    (e : Effect) : e.outside? lib other regs gates guard =
      (e.outside? lib home regs gates guard).map (List.map (Instruction.hosted other)) := by
  have hunder : ∀ xs : List Instruction, (xs.map (Instruction.hosted other)).map (Instruction.under guard) =
      (xs.map (Instruction.under guard)).map (Instruction.hosted other) := by
    intro xs
    rw [map_map, map_map]
    exact map_congr_left fun x _ => (Instruction.hosted_under other guard x).symm
  cases e with
  | apply name params targets =>
    rw [outside?, outside?]
    cases (params.mapM (Term.resolve [])).toOption with
    | none => rfl
    | some values =>
      cases targets.mapM (Target.operand? regs) with
      | none => rfl
      | some args =>
        dsimp only [bind, Option.bind]
        cases rows? args with
        | none => rfl
        | some rows =>
          dsimp only
          rw [mapM_eq_map_of_forall (h := List.map (Instruction.hosted other)) fun bits _ =>
            Program.expansion?_hosted home other gates.reverse name values bits]
          cases rows.mapM (Program.expansion? lib home gates.reverse name values) with
          | none => rfl
          | some parts =>
            refine congrArg some ?_
            rw [← map_flatten, hunder]
  | barrier targets =>
    rw [outside?, outside?]
    cases targets.mapM (Target.operand? regs) with
    | none => rfl
    | some args =>
      dsimp only [bind, Option.bind]
      cases args.all Argument.isListable <;> rfl
  | measure qubit clbit =>
    rw [outside?, outside?]
    cases qubit.operand? regs with
    | none => rfl
    | some q =>
      cases clbit.operand? regs with
      | none => rfl
      | some c =>
        dsimp only [bind, Option.bind]
        cases rows? [q, c] with
        | none => rfl
        | some rows =>
          refine congrArg some ?_
          rw [← hunder, map_map, map_map, map_map]
          rfl

end

/-! ## Rows of a statement -/

namespace Effect

variable {home : CircuitId} {guard : Option Condition}

/-- The operands that a gate or a measurement is repeated over. -/
def targets : Effect → List Target
  | .apply _ _ targets => targets
  | .measure qubit clbit => [qubit, clbit]
  | .barrier _ => []

/-- What a gate or a measurement comes to on one row of bits. -/
def row? (lib : Library) (home : CircuitId) (gates : List GateDef) (guard : Option Condition) (bits : List Bit) :
    Effect → Option (List Instruction)
  | .apply name params _ => do
    let values ← (params.mapM (Term.resolve [])).toOption
    let xs ← Program.expansion? lib home gates.reverse name values bits
    some (xs.map (Instruction.under guard))
  | .measure _ _ => some [(Instruction.reading home bits).under guard]
  | .barrier _ => none

/-- A statement comes to what its rows come to, one after the other. -/
theorem outside?_of_rows? (he : e.targets ≠ []) {args : List Argument}
    (hargs : e.targets.mapM (Target.operand? regs) = some args) {rows : List (List Bit)}
    (hrows : rows? args = some rows) (hne : rows ≠ []) : e.outside? lib home regs gates guard =
      (rows.mapM fun bits => e.row? lib home gates guard bits).map List.flatten := by
  cases e with
  | apply name params targets =>
    have htargets : targets.mapM (Target.operand? regs) = some args := hargs
    cases hvalues : (params.mapM (Term.resolve [])).toOption with
    | none =>
      have hnone : ∀ bits ∈ rows, (apply name params targets).row? lib home gates guard bits = none := by
        intro bits _
        rw [row?, hvalues]
        rfl
      rw [outside?, hvalues, mapM_eq_none_of_forall hne hnone]
      rfl
    | some values =>
      have hrow : ∀ bits ∈ rows, (apply name params targets).row? lib home gates guard bits =
          (Program.expansion? lib home gates.reverse name values bits).map (List.map (Instruction.under guard)) := by
        intro bits _
        rw [row?, hvalues]
        cases hxs : Program.expansion? lib home gates.reverse name values bits <;> exact congrArg (Option.bind · _) hxs
      rw [outside?, hvalues, htargets, mapM_eq_map_of_forall hrow]
      dsimp only [bind, Option.bind_some]
      rw [hrows, Option.bind_some]
      cases rows.mapM (Program.expansion? lib home gates.reverse name values) with
      | none => rfl
      | some parts => exact congrArg some map_flatten
  | measure qubit clbit =>
    obtain ⟨q, c, hq, hc, rfl⟩ : ∃ q c, qubit.operand? regs = some q ∧ clbit.operand? regs = some c ∧
        args = [q, c] := by
      cases mapM_eq_some.mp hargs with
      | cons hq hrest =>
        cases hrest with
        | cons hc hnil =>
          cases hnil
          exact ⟨_, _, hq, hc, rfl⟩
    have hrow : (rows.mapM fun bits => (measure qubit clbit).row? lib home gates guard bits) =
        some (rows.map fun bits => [(Instruction.reading home bits).under guard]) :=
      mapM_eq_some.mpr (forall₂_map_right_iff.mpr (forall₂_same.mpr fun _ _ => rfl))
    rw [outside?, hq, hc, hrow]
    dsimp only [bind, Option.bind_some, Option.map_some]
    rw [hrows, Option.bind_some, map_map, ← flatMap_def]
    exact congrArg some map_eq_flatMap
  | barrier targets => exact absurd rfl he

theorem outside?_of_bits (he : e.targets ≠ []) {bits : List Bit}
    (hargs : e.targets.mapM (Target.operand? regs) = some (bits.map .bit)) :
    e.outside? lib home regs gates guard = e.row? lib home gates guard bits := by
  rw [outside?_of_rows? he hargs (rows?_bits bits) (cons_ne_nil _ _), mapM_cons]
  cases e.row? lib home gates guard bits with
  | none => rfl
  | some xs => exact congrArg some (append_nil xs)

end Effect

/-! ## Statements one after the other -/

namespace Node

variable {home : CircuitId}

/-- What some statements come to, one after the other. -/
def expansions? (lib : Library) (home : CircuitId) (regs : List Register) (gates : List GateDef)
    (ns : List Node) : Option (List Instruction) :=
  (ns.mapM (Node.expansion? lib home regs gates)).map List.flatten

theorem expansion?_hosted (home other : CircuitId) (n : Node) : n.expansion? lib other regs gates =
    (n.expansion? lib home regs gates).map (List.map (Instruction.hosted other)) := by
  unfold expansion?
  cases n.effect? with
  | none => rfl
  | some e =>
    dsimp only [bind, Option.bind]
    cases (Program.guardOf? n).mapM (Guard.condition? regs) with
    | none => rfl
    | some guard => exact e.outside?_hosted home other regs gates guard

theorem expansions?_hosted (home other : CircuitId) (ns : List Node) : expansions? lib other regs gates ns =
    (expansions? lib home regs gates ns).map (List.map (Instruction.hosted other)) := by
  unfold expansions?
  rw [mapM_eq_map_of_forall (h := List.map (Instruction.hosted other)) fun n _ => n.expansion?_hosted home other]
  cases ns.mapM (Node.expansion? lib home regs gates) with
  | none => rfl
  | some parts => exact congrArg some map_flatten.symm

theorem expansions?_singleton (n : Node) : expansions? lib home regs gates [n] = n.expansion? lib home regs gates := by
  rw [expansions?, mapM_cons]
  cases n.expansion? lib home regs gates with
  | none => rfl
  | some xs => exact congrArg some (append_nil xs)

theorem expansions?_append :
    expansions? lib home regs gates (ns ++ ms) = some xs ↔
      ∃ ys zs, expansions? lib home regs gates ns = some ys ∧ expansions? lib home regs gates ms = some zs ∧
        ys ++ zs = xs := by
  unfold expansions?
  rw [mapM_append]
  cases ns.mapM (Node.expansion? lib home regs gates) with
  | none => exact iff_of_false (fun h => by cases h) fun h => by obtain ⟨_, _, hy, -⟩ := h; cases hy
  | some parts =>
    cases ms.mapM (Node.expansion? lib home regs gates) with
    | none => exact iff_of_false (fun h => by cases h) fun h => by obtain ⟨_, _, -, hz, -⟩ := h; cases hz
    | some parts' =>
      constructor
      · intro h
        cases h
        exact ⟨_, _, rfl, rfl, flatten_append.symm⟩
      · rintro ⟨ys, zs, hy, hz, rfl⟩
        cases hy
        cases hz
        exact congrArg some flatten_append

end Node

/-! ## Conditions -/

section

variable {home : CircuitId}

theorem Effect.condition_of_inside? {call : String → List Float → List Bit → Option (List Instruction)}
    (hcall : ∀ name values bits xs, call name values bits = some xs → ∀ x ∈ xs, x.condition = none)
    {env : Tree.Env} {formals : List (String × Bit)} (h : e.inside? home call env formals = some xs) :
    ∀ x ∈ xs, x.condition = none := by
  cases e with
  | apply name params targets =>
    obtain ⟨values, -, hrest⟩ := Option.bind_eq_some_iff.mp h
    obtain ⟨bits, -, hxs⟩ := Option.bind_eq_some_iff.mp hrest
    exact hcall _ _ _ _ hxs
  | barrier targets =>
    obtain ⟨bits, -, hxs⟩ := Option.bind_eq_some_iff.mp h
    split at hxs
    · cases hxs
      exact forall_mem_singleton.mpr rfl
    · cases hxs
  | measure qubit clbit => cases h

/-- What a gate comes to has no conditions. -/
theorem Program.condition_of_expansion? (name : String) (values : List Float) (bits : List Bit)
    (xs : List Instruction) (h : expansion? lib home gates name values bits = some xs) :
    ∀ x ∈ xs, x.condition = none := by
  induction gates generalizing name values bits xs with
  | nil =>
    obtain ⟨f, -, hxs⟩ := Option.bind_eq_some_iff.mp h
    split at hxs
    · cases hxs
      exact forall_mem_singleton.mpr rfl
    · cases hxs
  | cons g earlier ih =>
    rw [expansion?] at h
    split at h
    · split at h
      · obtain ⟨parts, hparts, hflatten⟩ := Option.bind_eq_some_iff.mp h
        cases hflatten
        intro x hx
        obtain ⟨part, hpart, hx⟩ := mem_flatten.mp hx
        obtain ⟨n, -, hn⟩ := exists_of_forall₂ (mapM_eq_some.mp hparts) part hpart
        obtain ⟨e, -, he⟩ := Option.bind_eq_some_iff.mp hn
        exact Effect.condition_of_inside? ih he x hx
      · cases h
    · exact ih name values bits xs h

/-- What a statement comes to has the guard of the statement for a condition, or none. -/
theorem Node.isShort_of_expansion?
    (hguard : ∀ g ∈ Program.guardOf? n, Text.isShort g.value) (h : n.expansion? lib home regs gates = some xs) :
    ∀ x ∈ xs, x.isShort := by
  obtain ⟨e, -, hrest⟩ := Option.bind_eq_some_iff.mp h
  obtain ⟨guard, hcondition, hxs⟩ := Option.bind_eq_some_iff.mp hrest
  have hunder : ∀ x : Instruction, x.condition = none → (x.under guard).isShort := by
    intro x hx
    cases hn : Program.guardOf? n with
    | none =>
      rw [hn] at hcondition
      cases hcondition
      exact Instruction.isShort_of_none hx
    | some g =>
      rw [hn] at hcondition
      have hmap : (g.condition? regs).map some = some guard := hcondition
      obtain ⟨c, hc, rfl⟩ := Option.map_eq_some_iff.mp hmap
      obtain ⟨r, -, rfl⟩ := Option.map_eq_some_iff.mp hc
      rw [Instruction.under, Instruction.guarded]
      split
      · exact Instruction.isShort_of_none hx
      · exact hguard g hn
  cases e with
  | apply name params targets =>
    obtain ⟨values, -, hxs⟩ := Option.bind_eq_some_iff.mp hxs
    obtain ⟨args, -, hxs⟩ := Option.bind_eq_some_iff.mp hxs
    obtain ⟨rows, -, hxs⟩ := Option.bind_eq_some_iff.mp hxs
    obtain ⟨parts, hparts, hxs⟩ := Option.bind_eq_some_iff.mp hxs
    cases hxs
    refine forall_mem_map.mpr fun x hx => hunder x ?_
    obtain ⟨part, hpart, hx⟩ := mem_flatten.mp hx
    obtain ⟨bits, -, hbits⟩ := exists_of_forall₂ (mapM_eq_some.mp hparts) part hpart
    exact Program.condition_of_expansion? _ _ _ _ hbits x hx
  | barrier targets =>
    obtain ⟨args, -, hxs⟩ := Option.bind_eq_some_iff.mp hxs
    split at hxs
    · cases hxs
      exact forall_mem_singleton.mpr (Instruction.isShort_of_none rfl)
    · cases hxs
  | measure qubit clbit =>
    obtain ⟨q, -, hxs⟩ := Option.bind_eq_some_iff.mp hxs
    obtain ⟨c, -, hxs⟩ := Option.bind_eq_some_iff.mp hxs
    obtain ⟨rows, -, hxs⟩ := Option.bind_eq_some_iff.mp hxs
    cases hxs
    exact forall_mem_map.mpr fun x hx => hunder x (by obtain ⟨bits, -, rfl⟩ := mem_map.mp hx; rfl)

end

/-! ## Accepted programs -/

namespace Program

def withBody (p : Program) (body : List Node) : Program := { p with body }

theorem instructions?_eq (home : CircuitId) :
    p.instructions? lib home regs = Node.expansions? lib home regs p.gates p.body := by
  unfold instructions? Node.expansions?
  cases p.body.mapM (Node.expansion? lib home regs p.gates) <;> rfl

/-- A program becomes a circuit with some registers, which is some instructions once it is flattened. -/
structure IsAccepted (lib : Library) (regs : List Register) (xs : List Instruction) (p : Program) : Prop where
  resolved : p.Resolved lib
  sizes : ∀ d ∈ p.qregs ++ p.cregs, Text.isShort d.2
  short : ∀ x ∈ xs, x.isShort
  valid : p.IsValid lib
  declares : p.Declares regs
  meaning : ∃ home, p.instructions? lib home regs = some xs

/-- Whatever was built before, the program comes to the same. -/
theorem IsAccepted.instructions? (h : p.IsAccepted lib regs xs) (home : CircuitId) :
    p.instructions? lib home regs = some (xs.map (Instruction.hosted home)) := by
  obtain ⟨other, hother⟩ := h.meaning
  rw [instructions?_eq] at hother ⊢
  rw [Node.expansions?_hosted other home, hother]
  rfl

/-- Every statement of an accepted program comes to something. -/
theorem IsAccepted.exists_expansion? (h : p.IsAccepted lib regs xs) (hn : n ∈ p.body) :
    ∃ home ys, n.expansion? lib home regs p.gates = some ys := by
  obtain ⟨home, hmeaning⟩ := h.meaning
  rw [instructions?_eq] at hmeaning
  obtain ⟨parts, hparts, -⟩ := Option.map_eq_some_iff.mp hmeaning
  obtain ⟨ys, -, hys⟩ := exists_of_forall₂ (mapM_eq_some.mp hparts).flip n hn
  exact ⟨home, ys, hys⟩

/-- What the checks ask of one statement. -/
structure Admits (lib : Library) (p : Program) (n : Node) : Prop where
  resolved : n.Resolved lib p
  valid : ∀ e ∈ n.effect?, e.IsValid lib p

theorem IsAccepted.admits (h : p.IsAccepted lib regs xs) : ∀ n ∈ p.body, p.Admits lib n :=
  fun n hn => ⟨h.resolved.body n hn, h.valid.body n hn⟩

/-- What a statement may do does not depend on the other statements. -/
theorem Admits.withBody (h : p.Admits lib n) (body : List Node) : (p.withBody body).Admits lib n :=
  ⟨⟨h.resolved.effect, h.resolved.guarded, h.resolved.placed⟩, h.valid⟩

theorem Resolved.withBody (h : p.Resolved lib) {body : List Node} (hbody : ∀ n ∈ body, n.Resolved lib p) :
    (p.withBody body).Resolved lib :=
  ⟨h.registers, h.names, h.includes, h.gates, fun n hn => ⟨(hbody n hn).effect, (hbody n hn).guarded,
    (hbody n hn).placed⟩⟩

/-- Statements can be replaced by others that come to the same. -/
theorem IsAccepted.replace {before after : List Node} (h : p.IsAccepted lib regs xs)
    (hbody : p.body = before ++ ms ++ after) (hns : ∀ n ∈ ns, p.Admits lib n)
    (hsame : ∀ home ys, Node.expansions? lib home regs p.gates ms = some ys →
      Node.expansions? lib home regs p.gates ns = some ys) :
    (p.withBody (before ++ ns ++ after)).IsAccepted lib regs xs := by
  have hadmits : ∀ n ∈ before ++ ns ++ after, p.Admits lib n := by
    intro n hn
    rw [append_assoc, mem_append, mem_append] at hn
    rcases hn with hn | hn | hn
    · refine h.admits n ?_
      rw [hbody, append_assoc]
      exact mem_append_left _ hn
    · exact hns n hn
    · refine h.admits n ?_
      rw [hbody]
      exact mem_append_right _ hn
  refine ⟨h.resolved.withBody fun n hn => (hadmits n hn).resolved, h.sizes, h.short,
    ⟨h.valid.version, h.valid.includes, h.valid.gates, fun n hn => (hadmits n hn).valid⟩, h.declares, ?_⟩
  · obtain ⟨home, hmeaning⟩ := h.meaning
    rw [instructions?_eq, hbody, Node.expansions?_append] at hmeaning
    obtain ⟨ys, zs, hys, hzs, rfl⟩ := hmeaning
    obtain ⟨us, vs, hus, hvs, rfl⟩ := Node.expansions?_append.mp hys
    refine ⟨home, ?_⟩
    rw [instructions?_eq]
    exact Node.expansions?_append.mpr ⟨_, zs, Node.expansions?_append.mpr ⟨us, vs, hus, hsame home vs hvs, rfl⟩,
      hzs, rfl⟩

end Program

/-! ## Circuits of accepted programs -/

namespace Store

open QasmCircuit.Action

variable {handed : List InstructionId}

/-- The store in which a program became a circuit is within reach. -/
theorem Reachable.lower (hs : s.Reachable lib handed)
    (h : (Action.lower lib name p).Returns s c t) :
    t.Reachable lib handed := by
  have hrun : ((Call.lower name p).run lib).Returns s [] t := h.bind rfl
  have hcall := hs.call (.lower name p) (forall_mem_nil _)
  rw [hrun] at hcall
  exact hcall

theorem Reachable.exists_lower (hs : s.Reachable .packaged handed)
    (h : p.IsAccepted .packaged regs xs)
    (name : Option Datum) : ∃ c t, (Action.lower .packaged name p).Returns s c t ∧
      (circuitText c).Returns t (Text.join "\n" (circuitLines .packaged regs xs) ++ "\n") t := by
  have hends := ends_lower (s := s) Library.packaged_hasPrimitives h.resolved h.valid h.sizes name
  obtain ⟨c, t, hreturns, x, ys, hlowered⟩ := Ends.returns (hends.imp (fun _ _ ht => ht) fun e _ he => by
    have hnone := he.2 regs h.declares
    rw [h.instructions?] at hnone
    cases hnone)
  refine ⟨c, t, hreturns, ?_⟩
  have hregs : x.registers = regs := hlowered.registers.unique h.declares
  have hys : ys = xs.map (Instruction.hosted c) := by
    have hmeaning := hlowered.meaning
    rw [hregs, h.instructions?] at hmeaning
    exact (Option.some.inj hmeaning).symm
  obtain ⟨lost, hsound, -⟩ := (hs.lower hreturns).exists_sound Library.isRegular_packaged
  have htext := (writes_circuitText hsound hlowered.stored hlowered.flattened
    (hasForm_of_flattened Library.isAligned_packaged hsound hlowered.flattened)).returns fun x hx => by
      obtain ⟨y, hy, rfl⟩ := mem_map.mp (hys ▸ hx)
      exact h.short y hy
  have hlines : (xs.map (Instruction.hosted c)).map (Instruction.line .packaged) =
    xs.map (Instruction.line .packaged) :=
    map_map
  rwa [circuitLines, hregs, hys, hlines] at htext

end Store

namespace Program

open QasmCircuit.Action

variable {q : Program}

theorem IsShort.isShort_of_instructions? (h : p.IsShort) {home : CircuitId}
    (hxs : p.instructions? .packaged home regs = some xs) : ∀ x ∈ xs, x.isShort := by
  obtain ⟨parts, hparts, hflatten⟩ := Option.bind_eq_some_iff.mp hxs
  cases hflatten
  intro x hx
  obtain ⟨part, hpart, hx⟩ := mem_flatten.mp hx
  obtain ⟨n, hn, hexpansion⟩ := exists_of_forall₂ (mapM_eq_some.mp hparts) part hpart
  exact Node.isShort_of_expansion? (h.2 n hn) hexpansion x hx

theorem exists_isAccepted (hres : p.Resolved .packaged) (hshort : p.IsShort)
    (h : (lower .packaged name p).Returns s c t) : ∃ regs xs, p.IsAccepted .packaged regs xs := by
  cases hvalidate : p.validate .packaged with
  | error e =>
    unfold lower at h
    rw [hvalidate] at h
    cases h
  | ok _ =>
    have hvalid := (hres.validate_iff Library.packaged_hasPrimitives).mp hvalidate
    have hends := ends_lower (s := s) Library.packaged_hasPrimitives hres hvalid hshort.1 name
    obtain ⟨x, xs, hlowered⟩ := h.ends.mp hends
    exact ⟨x.registers, xs, hres, hshort.1, hshort.isShort_of_instructions? hlowered.meaning, hvalid,
      hlowered.registers,
      c, hlowered.meaning⟩

/-- Wherever one program becomes a circuit the other one does, whatever was built before, and the circuits have the same
text. -/
def IsMatchedBy (p q : Program) : Prop :=
  ∀ (s t u : Store) (handed held : List InstructionId) (name label : Option Datum) (c : CircuitId),
    s.Reachable .packaged handed → (lower .packaged name p).Returns s c t → u.Reachable .packaged held →
    ∃ d v text, (lower .packaged label q).Returns u d v ∧ (circuitText c).Returns t text t ∧
      (circuitText d).Returns v text v

theorem isMatchedBy_of_isAccepted (hres : p.Resolved .packaged) (hshort : p.IsShort)
    (h : ∀ regs xs, p.IsAccepted .packaged regs xs → q.IsAccepted .packaged regs xs) :
    p.IsMatchedBy q := by
  intro s t u handed held name label c hs hreturns hu
  obtain ⟨regs, xs, hp⟩ := exists_isAccepted hres hshort hreturns
  obtain ⟨c', t', hreturns', htext⟩ := hs.exists_lower hp name
  cases hreturns.symm.trans hreturns'
  obtain ⟨d, v, hlower, htext'⟩ := hu.exists_lower (h regs xs hp) label
  exact ⟨d, v, _, hlower, htext, htext'⟩

end Program

end QasmCircuit
