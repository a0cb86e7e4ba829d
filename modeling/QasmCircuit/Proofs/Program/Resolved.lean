import QasmCircuit.Proofs.Program.Effect
import QasmCircuit.Proofs.Program.ReadBack

/-!
# What reading a program settles

In a program that was read, every statement has an effect, every name stands for something that was declared before it,
and every index is in range. `Program.Resolved` says so; the registers, the gates and the statements keep it while they
are read (`Resolved.extends`).

> `Program.resolved_of_parse`: every program that was read is resolved.
-/

namespace QasmCircuit

open List

variable {lib : Library} {p q : Program} {n : Node} {r : Source.Reference} {regs : List (String × Int)}
  {gates : List GateDef} {i : Source.Item} {text : String}

/-- What a parameter can be: a number, or an expression over the parameters of a gate. -/
inductive Term.IsParam (params : List String) : Term → Prop
  | value (x : Float) : IsParam params (.value (.real x))
  | symbolic {e : Expr} (hs : e.Spelled) (hnames : ∀ n ∈ e.names, n ∈ params) :
      IsParam params (.symbolic e.text e.toTree)

/-- A declared register, or a bit that it has. -/
def Target.IsIn (regs : List (String × Int)) (t : Target) : Prop :=
  ∃ size, regs.lookup t.1 = some size ∧ ∀ i ∈ t.2, 0 ≤ i ∧ i < size

/-- The register of a guard is declared and can hold its value. -/
def Guard.IsIn (regs : List (String × Int)) (g : Guard) : Prop :=
  0 ≤ g.value ∧ ∃ size, regs.lookup g.register = some size ∧ Program.fits g.value size

namespace Effect

/-- An effect in the body of a gate, with some gates declared before. -/
def IsInBody (lib : Library) (gates : List GateDef) (params args : List String) : Effect → Prop
  | .apply name terms targets => QasmCircuit.IsKnown lib gates name ∧ (∀ t ∈ terms, t.IsParam params) ∧
      targets ≠ [] ∧ ∀ t ∈ targets, t.1 ∈ args ∧ t.2 = none
  | .barrier targets => targets ≠ [] ∧ ∀ t ∈ targets, t.1 ∈ args ∧ t.2 = none
  | .measure _ _ => False

def IsInProgram (lib : Library) (p : Program) : Effect → Prop
  | .apply name terms targets => QasmCircuit.IsKnown lib p.gates name ∧ (∀ t ∈ terms, t.IsParam []) ∧
      targets ≠ [] ∧ ∀ t ∈ targets, t.IsIn p.qregs
  | .barrier targets => targets ≠ [] ∧ ∀ t ∈ targets, t.IsIn p.qregs
  | .measure qubit clbit => qubit.IsIn p.qregs ∧ clbit.IsIn p.cregs

theorem IsInProgram.isKnown {e : Effect} (h : e.IsInProgram lib p) :
    e.IsKnown lib p.gates := by
  cases e with
  | apply name terms targets => exact h.1
  | _ => trivial

end Effect

def Node.IsPlaced (n : Node) : Prop := ∃ position, Program.placeOf n = .ok position ∧ position.isValid

/-- A declaration all of whose names stand for something. -/
structure GateDef.Resolved (lib : Library) (before : List GateDef) (g : GateDef) : Prop where
  fresh : Program.IsFresh lib before g.name
  word : Lexeme.isWord g.name
  params_once : g.params.Nodup
  args_once : g.args.Nodup
  body : ∀ n ∈ g.body, ∃ e ∈ n.effect?, e.IsInBody lib before g.params g.args
  placed : ∀ n ∈ g.body, n.IsPlaced

/-- A statement that acts on the registers of a program and has a place in its text. -/
structure Node.Resolved (lib : Library) (p : Program) (n : Node) : Prop where
  effect : ∃ e ∈ n.effect?, e.IsInProgram lib p
  guarded : ∀ g ∈ Program.guardOf? n, g.IsIn p.cregs
  placed : n.IsPlaced

/-- A program all of whose names stand for something. -/
structure Program.Resolved (lib : Library) (p : Program) : Prop where
  registers : ∀ r ∈ p.qregs ++ p.cregs, IsRegister r
  names : ((p.qregs ++ p.cregs).map Prod.fst).Nodup
  includes : ∀ i ∈ p.includes, i.position.isValid
  gates : ∀ before g after, p.gates = before ++ g :: after → g.Resolved lib before
  body : ∀ n ∈ p.body, n.Resolved lib p

/-! ## Statements -/

namespace Source

open Program (GateScope)

variable {scope : Option GateScope} {keywords : List Keyword} {op : Operation}

def Reference.target (r : Reference) : Target := (r.name.text, r.indexValue)

theorem mapM_target?_operandTerms (rs : List Reference) :
    (operandTerms rs).mapM Term.target? = some (rs.map Reference.target) := by
  rw [operandTerms, mapM_map, Outcome.mapM_eq_some]
  induction rs with
  | nil => exact .nil
  | cons r rs ih => exact .cons rfl ih

theorem Reference.IsQuantum.isIn (h : r.IsQuantum p none) : r.target.IsIn p.qregs := by
  obtain ⟨size, hsize, hrange⟩ := h
  refine ⟨size, hsize, fun i hi => ⟨?_, hrange i hi⟩⟩
  obtain ⟨w, -, rfl⟩ := Option.map_eq_some_iff.mp hi
  exact Int.natCast_nonneg _

theorem Reference.IsDeclared.isIn (h : r.IsDeclared regs) :
    r.target.IsIn regs := by
  obtain ⟨size, hsize, hrange⟩ := h
  refine ⟨size, hsize, fun i hi => ⟨?_, hrange i hi⟩⟩
  obtain ⟨w, -, rfl⟩ := Option.map_eq_some_iff.mp hi
  exact Int.natCast_nonneg _

theorem isParam_of_isParameter {e : Expr} {t : Term} (hs : e.Spelled) (h : Program.IsParameter scope e t) :
    t.IsParam ((scope.map GateScope.params).getD []) := by
  unfold Program.IsParameter at h
  cases scope with
  | none =>
    obtain ⟨x, -, rfl⟩ := h
    exact .value x
  | some g =>
    obtain ⟨hnames, h⟩ := h
    by_cases hempty : e.names = []
    · rw [if_pos hempty] at h
      obtain ⟨x, -, rfl⟩ := h
      exact .value x
    · rw [if_neg hempty] at h
      subst h
      exact .symbolic hs hnames

theorem ParamsResolve.isParam {es : List Expr} {ts : List Term} (h : ParamsResolve scope es ts)
    (hs : ∀ e ∈ es, e.Spelled) : ∀ t ∈ ts, t.IsParam ((scope.map GateScope.params).getD []) := by
  have hall := Outcome.forall₂_imp_of_mem h fun e he t ht =>
    isParam_of_isParameter (hs e he) (Program.parameter_iff.mp ht)
  intro t ht
  obtain ⟨e, -, h⟩ := Outcome.exists_of_forall₂ hall t ht
  exact h

/-- What the application of a gate does. The gate is known, or a primitive stands for it. -/
theorem Operation.Resolves.exists_apply (hop : op.Spelled keywords) (h : op.Resolves lib p scope n) :
    ∃ name terms rs, n.effect? = some (.apply name terms (rs.map Reference.target)) ∧
      (IsKnown lib p.gates name ∨ name = "u3" ∨ name = "cx") ∧
      (∀ t ∈ terms, t.IsParam ((scope.map GateScope.params).getD [])) ∧ rs ≠ [] ∧ ∀ r ∈ rs, r.IsQuantum p scope := by
  cases h with
  | @unitary position theta phi lam target ts hparams htarget =>
    refine ⟨"u3", ts, [target], rfl, .inr (.inl rfl), ?_, cons_ne_nil _ _, ?_⟩
    · refine hparams.isParam ?_
      rw [forall_mem_cons, forall_mem_cons, forall_mem_singleton]
      exact ⟨hop.1, hop.2.1, hop.2.2.1⟩
    · exact forall_mem_singleton.mpr htarget
  | @controlledNot position control target hcontrol htarget =>
    refine ⟨"cx", [], [control, target], rfl, .inr (.inr rfl), ?_, cons_ne_nil _ _, ?_⟩
    · exact forall_mem_nil _
    · rw [forall_mem_cons, forall_mem_singleton]
      exact ⟨hcontrol, htarget⟩
  | @call name params operands ts hname hparams hoperands =>
    refine ⟨name.text, ts, operands, ?_, .inl hname, hparams.isParam ?_, hop.2.2.1, hoperands⟩
    · rw [Node.effect?, mapM_target?_operandTerms]
      rfl
    · intro e he
      cases params with
      | none => exact absurd he not_mem_nil
      | some ps => exact hop.2.1 ps rfl e he

/-- With the primitives in the library, every gate that is applied is known. -/
theorem Operation.Resolves.exists_effect (hlib : lib.HasPrimitives) (hop : op.Spelled keywords)
    (h : op.Resolves lib p scope n) :
    ∃ name terms rs, n.effect? = some (.apply name terms (rs.map Reference.target)) ∧ IsKnown lib p.gates name ∧
      (∀ t ∈ terms, t.IsParam ((scope.map GateScope.params).getD [])) ∧ rs ≠ [] ∧ ∀ r ∈ rs, r.IsQuantum p scope := by
  have hcontains : ∀ {name : String} {f : Family}, lib.find? name = some f → IsKnown lib p.gates name := by
    intro name f hf
    refine .inl ?_
    rw [Library.contains, hf]
    rfl
  obtain ⟨name, terms, rs, he, hname, hrest⟩ := h.exists_apply hop
  refine ⟨name, terms, rs, he, ?_, hrest⟩
  rcases hname with hknown | rfl | rfl
  · exact hknown
  · exact hlib.unitary.elim fun f hf => hcontains hf.1
  · exact hlib.controlledNot.elim fun f hf => hcontains hf.1

theorem mem_map_target {rs : List Reference} {R : Target → Prop} (h : ∀ r ∈ rs, R r.target) :
    ∀ t ∈ rs.map Reference.target, R t := by
  intro t ht
  obtain ⟨r, hr, rfl⟩ := mem_map.mp ht
  exact h r hr

theorem Operation.Resolves.isPlaced (h : op.Resolves lib p scope n) : n.IsPlaced := by
  cases h <;> exact ⟨_, rfl, Position.clamp_isValid _⟩

theorem BodyStatement.Resolves.exists_effect (hlib : lib.HasPrimitives) {g : GateScope}
    {s : BodyStatement} (hs : s.Spelled keywords) (h : s.Resolves lib { gates := gates } g n) :
    (∃ e ∈ n.effect?, e.IsInBody lib gates g.params g.args) ∧ n.IsPlaced := by
  cases h with
  | operation hop =>
    obtain ⟨name, terms, rs, he, hname, hterms, hne, hrs⟩ := hop.exists_effect hlib hs
    exact ⟨⟨_, he, hname, hterms, fun h => hne (map_eq_nil_iff.mp h), mem_map_target hrs⟩, hop.isPlaced⟩
  | @barrier position operands hoperands =>
    refine ⟨⟨.barrier (operands.map Reference.target), ?_, fun h => hs.1 (map_eq_nil_iff.mp h),
      mem_map_target hoperands⟩, _, rfl, Position.clamp_isValid _⟩
    rw [Node.effect?, mapM_target?_operandTerms]
    rfl

/-- An action does something on the registers of a program, has no guard yet and has a place. -/
theorem Action.Resolves.exists_effect (hlib : lib.HasPrimitives) {a : Action} (ha : a.Spelled keywords)
    (h : a.Resolves lib p n) : ∃ e, e.IsInProgram lib p ∧ n.IsPlaced ∧
      n.effect? = some e ∧ Program.guardOf? n = none ∧ ∀ g, (n.withGuard g).effect? = some e ∧
        Program.placeOf (n.withGuard g) = Program.placeOf n ∧ Program.guardOf? (n.withGuard g) = some g := by
  cases h with
  | operation hop =>
    obtain ⟨name, terms, rs, he, hname, hterms, hne, hrs⟩ := hop.exists_effect hlib ha
    refine ⟨.apply name terms (rs.map Reference.target), ?_, hop.isPlaced, he, ?_, fun g => ?_⟩
    · exact ⟨hname, hterms, fun h => hne (map_eq_nil_iff.mp h), mem_map_target fun r hr => (hrs r hr).isIn⟩
    · cases hop <;> rfl
    · cases hop <;> exact ⟨he, rfl, rfl⟩
  | @measure position qubit clbit hqubit hclbit =>
    exact ⟨.measure qubit.target clbit.target, ⟨hqubit.isIn, hclbit.isIn⟩, ⟨_, rfl, Position.clamp_isValid _⟩, rfl, rfl,
      fun g => ⟨rfl, rfl, rfl⟩⟩

theorem Statement.Resolves.resolved (hlib : lib.HasPrimitives) {s : Statement} (hs : s.Spelled)
    (h : s.Resolves lib p n) :
    n.Resolved lib p := by
  cases h with
  | action ha =>
    obtain ⟨e, hin, hplaced, he, hguard, -⟩ := ha.exists_effect hlib hs
    refine ⟨⟨e, he, hin⟩, fun g hg => ?_, hplaced⟩
    rw [hguard] at hg
    cases hg
  | @barrier position operands hoperands =>
    refine ⟨⟨.barrier (operands.map Reference.target), ?_, ?_⟩, fun g hg => ?_, _, rfl, Position.clamp_isValid _⟩
    · rw [Node.effect?, mapM_target?_operandTerms]
      rfl
    · exact ⟨fun h => hs.1 (map_eq_nil_iff.mp h), mem_map_target fun r hr => (hoperands r hr).isIn⟩
    · cases hg
  | @guarded position register value a m size hregister hfits ha =>
    obtain ⟨e, hin, ⟨place, hplace, hvalid⟩, -, -, hguarded⟩ := ha.exists_effect hlib hs.2.2.1
    obtain ⟨he, hplace', hguard⟩ := hguarded ⟨register.text, value.value⟩
    refine ⟨⟨e, he, hin⟩, fun g hg => ?_, place, hplace'.trans hplace, hvalid⟩
    rw [hguard] at hg
    cases hg
    exact ⟨Int.natCast_nonneg _, size, hregister, hfits⟩

end Source

/-! ## Declarations -/

theorem Target.IsIn.mono {regs' : List (String × Int)} {t : Target} (h : t.IsIn regs)
    (hsub : ∀ name size, regs.lookup name = some size → regs'.lookup name = some size) :
    t.IsIn regs' := by
  obtain ⟨size, hsize, hrange⟩ := h
  exact ⟨size, hsub _ _ hsize, hrange⟩

/-- Whatever is declared later, a statement goes on to be resolved. -/
theorem Node.Resolved.mono (h : n.Resolved lib p) (hpq : p.Within q) :
    n.Resolved lib q := by
  obtain ⟨⟨e, he, hin⟩, hguarded, hplaced⟩ := h
  refine ⟨⟨e, he, ?_⟩, fun g hg => ?_, hplaced⟩
  · cases e with
    | apply name terms targets =>
      exact ⟨hin.1.imp_right (hpq.gates name), hin.2.1, hin.2.2.1, fun t ht => (hin.2.2.2 t ht).mono hpq.qregs⟩
    | barrier targets => exact ⟨hin.1, fun t ht => (hin.2 t ht).mono hpq.qregs⟩
    | measure qubit clbit => exact ⟨hin.1.mono hpq.qregs, hin.2.mono hpq.cregs⟩
  · obtain ⟨hnonneg, size, hsize, hfits⟩ := hguarded g hg
    exact ⟨hnonneg, size, hpq.cregs _ _ hsize, hfits⟩

namespace Program

open Source

variable {P : List GateDef → GateDef → Prop}

theorem repeats_eq_false {names : List String} : repeats names = false ↔ names.Nodup := by
  induction names with
  | nil => exact iff_of_true rfl nodup_nil
  | cons n rest ih =>
    rw [repeats, Bool.or_eq_false_iff, ih, nodup_cons, contains_eq_mem, decide_eq_false_iff_not]

theorem resolved_of_declares (hlib : lib.HasPrimitives) {d : Declaration} {g : GateDef}
    (hd : d.Spelled) (h : d.Declares lib gates g) : g.Resolved lib gates := by
  cases h with
  | gate hfresh hparams hargs hbody =>
    have hall := Outcome.forall₂_imp_of_mem hbody fun s hs n hn =>
      (bodySpelled_forall hd.2.2.2 s hs).elim fun keywords hs => hn.exists_effect hlib hs
    have hstatement := fun n hn => (Outcome.exists_of_forall₂ hall n hn).elim fun _ h => h.2
    exact ⟨hfresh, hd.1, repeats_eq_false.mp hparams, repeats_eq_false.mp hargs, fun n hn => (hstatement n hn).1,
      fun n hn => (hstatement n hn).2⟩

/-- What holds of the gates of a program, each with those before it, holds after an item if it holds of the gate that
the item declares. -/
theorem gates_of_extends (hq : i.Extends lib p q)
    (h : ∀ before g after, p.gates = before ++ g :: after → P before g)
    (hnew : ∀ (d : Declaration) g, i = .declaration d → d.Declares lib p.gates g → P p.gates g) :
    ∀ before g after, q.gates = before ++ g :: after → P before g := by
  cases hq with
  | gate hg => exact forall_split_snoc h (hnew _ _ rfl hg)
  | _ => exact h

/-- What holds of every gate when it is declared, with those before it, holds of the gates of a program that was
read. -/
theorem gates_of_parse
    (hnew : ∀ gates (d : Declaration) g, d.Spelled → d.Declares lib gates g → P gates g)
    (h : parse lib text = .ok p) : ∀ before g after, p.gates = before ++ g :: after → P before g := by
  obtain ⟨s, hs, hp, -⟩ := parse_iff.mp h
  have hspelled := Source.spelled_of_parse hs
  have hitems : ∀ {q r : Program} {items : List Item}, (∀ i ∈ items, i.Spelled) → ItemsExtend lib q items r →
      (∀ before g after, q.gates = before ++ g :: after → P before g) →
        ∀ before g after, r.gates = before ++ g :: after → P before g := by
    intro q r items hspelled hr
    induction hr with
    | nil => exact fun hq => hq
    | cons hi _ ih =>
      rw [forall_mem_cons] at hspelled
      refine fun hq => ih hspelled.2 (gates_of_extends hi hq fun d g hd hg => ?_)
      rw [hd] at hspelled
      exact hnew _ d g hspelled.1 hg
  refine hitems hspelled.2 ((ofTree_iff hspelled).mp hp) fun before g after hsplit => ?_
  exact absurd hsplit (by simp [empty])

theorem Resolved.extends (hlib : lib.HasPrimitives) (h : p.Resolved lib) (hr : q.Readable lib)
    (hi : i.Spelled) (hq : i.Extends lib p q) : q.Resolved lib := by
  have hbody : ∀ n ∈ p.body, n.Resolved lib q := fun n hn => (h.body n hn).mono (Within.of_extends hq)
  refine ⟨hr.registers, hr.names, ?_, ?_, ?_⟩
  · cases hq with
    | includes hpath =>
      exact forall_mem_append.mpr ⟨h.includes, forall_mem_singleton.mpr (Position.clamp_isValid _)⟩
    | _ => exact h.includes
  · refine gates_of_extends hq h.gates fun d g hd hg => ?_
    rw [hd] at hi
    exact resolved_of_declares hlib hi hg
  · cases hq with
    | statement hs =>
      exact Outcome.forall_mem_concat hbody ((hs.resolved hlib hi).mono (within_addBody p _))
    | _ => exact hbody

/-- Every program that was read is resolved. -/
theorem resolved_of_parse (hlib : lib.HasPrimitives) (h : parse lib text = .ok p) : p.Resolved lib := by
  obtain ⟨s, hs, hp, -⟩ := parse_iff.mp h
  have hspelled := Source.spelled_of_parse hs
  have hitems : ∀ {q r : Program} {items : List Item}, q.Readable lib → q.Resolved lib → (∀ i ∈ items, i.Spelled) →
      ItemsExtend lib q items r → r.Resolved lib := by
    intro q r items hread hq hspelled hr
    induction hr with
    | nil => exact hq
    | cons hi _ ih =>
      rw [forall_mem_cons] at hspelled
      have hread' := hread.extends hspelled.1 hi
      exact ih hread' (hq.extends hlib hread' hspelled.1 hi) hspelled.2
  refine hitems (readable_empty hspelled.1) ⟨?_, nodup_nil, ?_, ?_, ?_⟩ hspelled.2 ((ofTree_iff hspelled).mp hp)
  · exact forall_mem_nil _
  · exact forall_mem_nil _
  · intro before g after hsplit
    exact absurd hsplit (by simp [empty])
  · exact forall_mem_nil _

/-- What a statement of a resolved program does is on the registers of the program. -/
theorem Resolved.isInProgram (h : p.Resolved lib) (hn : n ∈ p.body) {e : Effect} (he : n.effect? = some e) :
    e.IsInProgram lib p := by
  obtain ⟨e', he', hin⟩ := (h.body n hn).effect
  cases he.symm.trans he'
  exact hin

theorem Resolved.ownNames (h : p.Resolved lib) : OwnNames lib p.gates := by
  intro g hg
  obtain ⟨before, after, hsplit⟩ := append_of_mem hg
  exact (h.gates before g after hsplit).fresh.2

theorem isKnown_append {before : List GateDef} (more : List GateDef) {name : String} (h : IsKnown lib before name) :
    IsKnown lib (before ++ more) name := by
  refine h.imp_right fun h => ?_
  rw [findGate?, find?_append, Option.isSome_or, Bool.or_eq_true]
  exact .inl h

theorem Resolved.validate_iff (hlib : lib.HasPrimitives) (h : p.Resolved lib) :
    p.validate lib = .ok () ↔ p.IsValid lib := by
  refine Program.validate_iff hlib h.ownNames (fun g hg n hn => ?_) fun n hn => ?_
  · obtain ⟨before, after, hsplit⟩ := append_of_mem hg
    obtain ⟨e, he, hin⟩ := (h.gates before g after hsplit).body n hn
    refine ⟨e, he, ?_⟩
    rw [hsplit]
    cases e with
    | apply name terms targets => exact isKnown_append _ hin.1
    | _ => trivial
  · obtain ⟨e, he, hin⟩ := (h.body n hn).effect
    exact ⟨e, he, hin.isKnown⟩

end Program

end QasmCircuit
