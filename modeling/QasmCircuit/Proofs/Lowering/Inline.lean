import QasmCircuit.Proofs.Circuit.Written
import QasmCircuit.Proofs.Lowering.Replace

/-!
# Calls replaced by bodies

A call of a declared gate on single bits can be replaced by the statements of its body (`GateDef.inlined`): the
arguments of the gate become the operands of the call, expressions become the values that they have there, and the
guard of the call goes to all statements but barriers. What a call comes to is defined with the gates that are
declared before the called one, which is where its body was checked; the statements that take its place are checked
with all gates, on bits of registers (`GateDef.IsCalledOn.inlined_effect`).

> `Program.isMatchedBy_of_inlines`: however many calls are replaced, the circuit is the same one, and calls on bits can
> be replaced until none is left.
-/

namespace QasmCircuit

open Outcome List

variable {env : Tree.Env} {refs : List Ref} {bits found : List Bit} {targets : List Target} {lib : Library}
  {p q : Program} {home : CircuitId} {earlier later : List GateDef} {regs : List Register} {g : GateDef}
  {xs : List Instruction} {n : Node} {e : Effect} {guard : Option Guard} {name : String} {position : Position}
  {params operands : List Term} {t : Term} {x : Float} {condition : Option Condition}

/-! ## Statements of a body in the place of a call -/

/-- An argument of a gate gives up its place to an operand of a call. It stays a reference of its kind. -/
def Ref.bound (formals : List (String × Ref)) (r : Ref) : Ref :=
  match formals.lookup r.name with
  | some q => { q with kind := r.kind }
  | none => r

/-- What an argument of a gate names in a call. -/
def Target.bound (formals : List (String × Ref)) (t : Target) : Target :=
  match formals.lookup t.1 with
  | some q => q.target
  | none => t

/-- A parameter or an operand in a call. -/
def Term.inlined (env : Tree.Env) (formals : List (String × Ref)) : Term → Term
  | .ref r => .ref (r.bound formals)
  | .symbolic text expr =>
    match expr.evaluate env with
    | .ok x => .value (.real x)
    | .error _ => .symbolic text expr
  | .value d => .value d

/-- A statement of a body in a call. Barriers have no guard. -/
def Node.inlined (env : Tree.Env) (formals : List (String × Ref)) (guard : Option Guard) : Node → Node
  | .call name p params operands _ =>
    .call name p (params.map (Term.inlined env formals)) (operands.map (Term.inlined env formals)) guard
  | .primitive op first second _ p =>
    .primitive op (first.map (Term.inlined env formals)) (second.map (Term.inlined env formals)) guard p
  | .barrier p operands => .barrier p (operands.map (Term.inlined env formals))
  | n => n

/-- What a statement of a body does in a call. -/
def Effect.inlined (env : Tree.Env) (formals : List (String × Ref)) : Effect → Effect
  | .apply name params targets =>
    .apply name (params.map (Term.inlined env formals)) (targets.map (Target.bound formals))
  | .barrier targets => .barrier (targets.map (Target.bound formals))
  | e => e

/-- The values of the parameters of a call. -/
def Term.values (params : List Term) : List Float := (params.mapM (Term.resolve [])).toOption.getD []

/-- The statements that take the place of a call. -/
def GateDef.inlined (g : GateDef) (params : List Term) (refs : List Ref) (guard : Option Guard) : List Node :=
  g.body.map (Node.inlined (g.env (Term.values params)) (g.args.zip refs) guard)

/-- One call of a declared gate on single bits is replaced by the body of the gate. -/
inductive Program.Inlines (p : Program) : Program → Prop
  | call {before after : List Node} {name : String} {position : Position} {params operands : List Term}
      {guard : Option Guard} {g : GateDef} {refs : List Ref}
      (hbody : p.body = before ++ .call name position params operands guard :: after)
      (hgate : findGate? p.gates name = some g) (hrefs : operands.mapM Term.reference = .ok refs)
      (hbits : ∀ r ∈ refs, r.index.isSome) :
      Inlines p (p.withBody (before ++ g.inlined params refs guard ++ after))

section

variable {formals : List (String × Ref)}

theorem Ref.target_bound (r : Ref) : (r.bound formals).target = r.target.bound formals := by
  have hname : r.target.1 = r.name := rfl
  rw [bound, Target.bound, hname]
  cases formals.lookup r.name <;> rfl

theorem Ref.kind_bound (r : Ref) : (r.bound formals).kind = r.kind := by
  rw [bound]
  cases formals.lookup r.name <;> rfl

/-- Only references name something, before and after. -/
theorem Term.target?_inlined (t : Term) : (t.inlined env formals).target? = t.target?.map (Target.bound formals) := by
  cases t with
  | ref r =>
    rw [inlined, target?, target?, reference, reference, Ref.kind_bound]
    split
    · rfl
    · exact congrArg some r.target_bound
  | symbolic text expr =>
    rw [inlined]
    cases expr.evaluate env <;> rfl
  | value d => rfl

theorem Term.primitiveTarget?_inlined (t : Term) :
    (t.inlined env formals).primitiveTarget? = t.primitiveTarget?.map (Target.bound formals) := by
  cases t with
  | ref r =>
    rw [inlined, primitiveTarget?, primitiveTarget?, toQuantum, toQuantum, Ref.kind_bound]
    split
    · exact congrArg some r.target_bound
    · rfl
  | symbolic text expr =>
    rw [inlined]
    cases expr.evaluate env <;> rfl
  | value d => rfl

/-- A statement of a body has its effect in a call. -/
theorem Node.effect?_inlined (guard : Option Guard) (n : Node) :
    (n.inlined env formals guard).effect? = n.effect?.map (Effect.inlined env formals) := by
  cases n with
  | call name position params operands _ =>
    rw [inlined, effect?, effect?, mapM_map, mapM_eq_map_of_forall fun t _ => t.target?_inlined]
    cases operands.mapM Term.target? <;> rfl
  | primitive op first second _ position =>
    rw [inlined, effect?, effect?, primitiveOperands_map, primitiveParams_map, mapM_map,
      mapM_eq_map_of_forall fun t _ => t.primitiveTarget?_inlined]
    cases (Program.libraryName op).toOption with
    | none => rfl
    | some name => cases (primitiveOperands op first second).mapM Term.primitiveTarget? <;> rfl
  | barrier position operands =>
    rw [inlined, effect?, effect?, mapM_map, mapM_eq_map_of_forall fun t _ => t.target?_inlined]
    cases operands.mapM Term.target? <;> rfl
  | measure qubit clbit position g =>
    have hsame : (Node.measure qubit clbit position g).inlined env formals guard =
      .measure qubit clbit position g := rfl
    rw [hsame, effect?]
    cases qubit.target? with
    | none => rfl
    | some q => cases clbit.target? <;> rfl
  | _ => rfl

theorem Node.placeOf_inlined (guard : Option Guard) (n : Node) :
    Program.placeOf (n.inlined env formals guard) = Program.placeOf n := by
  cases n <;> rfl

theorem Term.resolve_inlined (h : t.resolve env = .ok x) :
    (t.inlined env formals).resolve [] = .ok x := by
  cases t with
  | ref r => cases h
  | symbolic text expr =>
    have hvalue : expr.evaluate env = .ok x := h
    rw [inlined, hvalue]
    rfl
  | value d => exact h

theorem Term.IsParam.inlined {bound : List String} (ht : t.IsParam bound)
    (h : t.resolve env = .ok x) : (t.inlined env formals).IsParam [] := by
  cases ht with
  | value y => exact .value y
  | @symbolic e hs hnames =>
    have hvalue : e.toTree.evaluate env = .ok x := h
    rw [Term.inlined, hvalue]
    exact .value x

end

/-! ## Bits for arguments -/

/-- Some references name some bits. -/
def Bit.AreNamed (refs : List Ref) (bits : List Bit) : Prop :=
  Forall₂ (fun (q : Ref) (b : Bit) => q.target = b.target) refs bits

theorem Bit.AreNamed.map_target (h : Bit.AreNamed refs bits) : refs.map Ref.target = bits.map Bit.target :=
  maps_eq_iff.mpr h

namespace GateDef

variable {args : List String}

theorem lookup_zip_of_areNamed (h : Bit.AreNamed refs bits) {a : String} {b : Bit}
    (hb : (args.zip bits).lookup a = some b) : ∃ q, (args.zip refs).lookup a = some q ∧ q.target = b.target := by
  induction h generalizing args with
  | nil =>
    rw [zip_nil_right] at hb
    cases hb
  | @cons q b' refs bits hq _ ih =>
    cases args with
    | nil => cases hb
    | cons x args =>
      rw [zip_cons_cons, lookup_cons] at hb ⊢
      cases hx : a == x with
      | true =>
        rw [hx] at hb
        cases hb
        exact ⟨q, rfl, hq⟩
      | false =>
        rw [hx] at hb
        exact ih hb

/-- The operands of a call name the bits that are bound to the arguments. -/
theorem map_bound_of_formals (h : Bit.AreNamed refs bits)
    (hfound : targets.mapM (fun t => (args.zip bits).lookup t.1) = some found) :
    targets.map (Target.bound (args.zip refs)) = found.map Bit.target := by
  rw [mapM_eq_some] at hfound
  rw [maps_eq_iff]
  refine hfound.imp fun t b hb => ?_
  obtain ⟨q, hq, htarget⟩ := lookup_zip_of_areNamed h hb
  rw [Target.bound, hq]
  exact htarget

theorem ne_nil_of_formals {formals : List (String × Bit)}
    (hfound : targets.mapM (fun t => formals.lookup t.1) = some found) (hne : targets ≠ []) : found ≠ [] := by
  rintro rfl
  exact hne (forall₂_nil_right_iff.mp (mapM_eq_some.mp hfound))

end GateDef

theorem Instruction.under_fence (guard : Option Condition) (home : CircuitId) (bits : List Bit) :
    (Instruction.fence home bits).under guard = .fence home bits := by
  cases guard <;> rfl

/-! ## Effects in a call -/

theorem Bit.distinct_of_nodup_target (h : (bits.map Bit.target).Nodup) : distinct bits := by
  rw [distinct_iff]
  rw [Nodup, pairwise_map] at h ⊢
  refine h.imp fun hne hkey => hne ?_
  obtain ⟨hname, hindex⟩ := Prod.mk.inj hkey
  rw [target, target, hname, hindex]

theorem Target.exists_bits {kind : RegisterKind} {declared : List (String × Int)}
    (hnames : (regs.map Register.name).Nodup) (hdeclared : Declared regs kind declared)
    (hin : ∀ r ∈ refs, r.target.IsIn declared) (hindex : ∀ r ∈ refs, r.index.isSome) :
    ∃ bits, Bit.AreNamed refs bits ∧ ∀ b ∈ bits, b.target.operand? regs = some (.bit b) := by
  have hall : ∀ r ∈ refs, ∃ b : Bit, r.target = b.target ∧ b.target.operand? regs = some (.bit b) := by
    intro r hr
    obtain ⟨a, ha, hoperand, htarget⟩ := (hin r hr).exists_operand? hnames hdeclared
    cases a with
    | bit b =>
      have hb : r.target = b.target := (Option.some.inj htarget).symm
      exact ⟨b, hb, hb ▸ ha⟩
    | register q =>
      have hnone : r.index = none := (congrArg Prod.snd (Option.some.inj htarget)).symm
      have hsome := hindex r hr
      rw [hnone] at hsome
      cases hsome
    | _ => cases htarget
  obtain ⟨bits, hbits⟩ := Outcome.exists_forall₂ hall
  refine ⟨bits, hbits.imp fun _ _ h => h.1, fun b hb => ?_⟩
  obtain ⟨r, -, -, h⟩ := exists_of_forall₂ hbits b hb
  exact h

namespace Program

/-- What is known where a gate is declared is not declared there or later. -/
theorem name_ne_of_isKnown (hres : p.Resolved lib)
    (hsplit : p.gates = earlier ++ g :: later) (hknown : IsKnown lib earlier name) :
    ∀ f ∈ (g :: later).reverse, f.name ≠ name := by
  intro f hf hname
  have hf : f ∈ g :: later := mem_reverse.mp hf
  rcases hknown with hknown | hknown
  · have hown := (hres.ownNames f (hsplit ▸ mem_append_right _ hf)).1
    rw [hname, hknown] at hown
    cases hown
  · obtain ⟨f', hf'⟩ := Option.isSome_iff_exists.mp hknown
    obtain ⟨between, rest, hearlier⟩ := append_of_mem (mem_of_find?_eq_some hf')
    have hsplit' : p.gates = between ++ f' :: (rest ++ g :: later) := by
      rw [hsplit, hearlier, append_assoc]
      rfl
    exact Action.name_ne_of_later hres hsplit' f (mem_append_right _ hf) (hname.trans (findGate?_name hf').symm)

theorem expansion?_of_isKnown (hres : p.Resolved lib)
    (hsplit : p.gates = earlier ++ g :: later) (hknown : IsKnown lib earlier name) :
    expansion? lib home p.gates.reverse name = expansion? lib home earlier.reverse name := by
  rw [hsplit, reverse_append]
  exact expansion?_of_forall_ne (name_ne_of_isKnown hres hsplit hknown) _

end Program

/-- A declared gate is called on some bits, with values for its parameters. -/
structure GateDef.IsCalledOn (lib : Library) (p : Program) (regs : List Register) (earlier later : List GateDef)
    (g : GateDef) (refs : List Ref) (bits : List Bit) : Prop where
  resolved : p.Resolved lib
  valid : p.IsValid lib
  split : p.gates = earlier ++ g :: later
  named : Bit.AreNamed refs bits
  operands : ∀ b ∈ bits, b.target.operand? regs = some (.bit b)
  isIn : ∀ b ∈ bits, b.target.IsIn p.qregs
  distinct : Bit.distinct bits
  length_eq : bits.length = g.args.length

/-- A statement that can stand in a program, on single bits, comes to some instructions there. -/
structure Effect.StandsFor (lib : Library) (p : Program) (home : CircuitId) (regs : List Register)
    (guard : Option Condition) (xs : List Instruction) (e : Effect) : Prop where
  inProgram : e.IsInProgram lib p
  valid : e.IsValid lib p
  bits : ∀ t ∈ e.targets, t.2.isSome
  outside : e.outside? lib home regs p.gates guard = some (xs.map (Instruction.under guard))

namespace GateDef.IsCalledOn

variable (h : g.IsCalledOn lib p regs earlier later refs bits)
include h

theorem mapM_operand? (hfound : ∀ b ∈ found, b ∈ bits) :
    (found.map Bit.target).mapM (Target.operand? regs) = some (found.map .bit) := by
  rw [mapM_eq_some, forall₂_map_left_iff, forall₂_map_right_iff, forall₂_same]
  exact fun b hb => h.operands b (hfound b hb)

theorem isIn_targets (hfound : ∀ b ∈ found, b ∈ bits) : ∀ t ∈ found.map Bit.target, t.IsIn p.qregs := by
  intro t ht
  obtain ⟨b, hb, rfl⟩ := mem_map.mp ht
  exact h.isIn b (hfound b hb)

theorem inlined_barrier (hin : (Effect.barrier targets).IsInBody lib earlier g.params g.args)
    (hxs : (Effect.barrier targets).inside? home (Program.expansion? lib home earlier.reverse) env (g.args.zip bits) =
      some xs) (guard : Option Condition) :
    ((Effect.barrier targets).inlined env (g.args.zip refs)).StandsFor lib p home regs guard xs := by
  obtain ⟨found, hfound, hxs⟩ := Option.bind_eq_some_iff.mp hxs
  have hmem := mem_of_formals hfound
  have hne : found.map Bit.target ≠ [] := fun hnil => ne_nil_of_formals hfound hin.1 (map_eq_nil_iff.mp hnil)
  rw [Effect.inlined, map_bound_of_formals h.named hfound]
  by_cases hdistinct : Bit.distinct found
  · rw [if_pos hdistinct] at hxs
    cases hxs
    refine ⟨⟨hne, h.isIn_targets hmem⟩, Bit.distinct_target hdistinct, forall_mem_nil _, ?_⟩
    rw [Effect.outside?, h.mapM_operand? hmem, Option.bind_eq_bind, Option.bind_some,
      if_pos (Argument.isListable_bits found), flatMap_bits_bit, map_singleton, Instruction.under_fence]
  · rw [if_neg hdistinct] at hxs
    cases hxs

theorem inlined_apply
    (hin : (Effect.apply name params targets).IsInBody lib earlier g.params g.args)
    (hsuits : (Effect.apply name params targets).Suits lib p.gates [])
    (hxs : (Effect.apply name params targets).inside? home (Program.expansion? lib home earlier.reverse) env
      (g.args.zip bits) = some xs) (guard : Option Condition) :
    ((Effect.apply name params targets).inlined env (g.args.zip refs)).StandsFor lib p home regs guard xs := by
  obtain ⟨values, hvalues, hxs⟩ := Option.bind_eq_some_iff.mp hxs
  obtain ⟨found, hfound, hxs⟩ := Option.bind_eq_some_iff.mp hxs
  obtain ⟨hknown, hparams, hsome, hformal⟩ := hin
  obtain ⟨htakes, hapart, -⟩ := hsuits
  have hmem := mem_of_formals hfound
  have hne : found.map Bit.target ≠ [] := fun hnil => ne_nil_of_formals hfound hsome (map_eq_nil_iff.mp hnil)
  have hdistinct : Bit.distinct found := distinct_of_formals h.distinct h.length_eq
    (Target.nodup_names hapart.1 fun t ht => (hformal t ht).2) hfound
  have hall := mapM_eq_ok.mp (toOption_eq_some.mp hvalues)
  have hresolve : ((params.map (Term.inlined env (g.args.zip refs))).mapM (Term.resolve [])).toOption =
    some values := by
    rw [toOption_eq_some, mapM_eq_ok, forall₂_map_left_iff]
    exact hall.imp fun _ _ hx => Term.resolve_inlined hx
  rw [Effect.inlined, map_bound_of_formals h.named hfound]
  refine ⟨⟨?_, fun t' ht' => ?_, hne, h.isIn_targets hmem⟩, ⟨?_, Bit.distinct_target hdistinct, Bit.oneSize_target _ _⟩,
    fun t' ht' => ?_, ?_⟩
  · rw [h.split]
    exact Program.isKnown_append _ hknown
  · obtain ⟨t, ht, rfl⟩ := mem_map.mp ht'
    obtain ⟨x, -, hx⟩ := exists_of_forall₂ hall.flip t ht
    exact (hparams t ht).inlined hx
  · rwa [length_map, length_map, length_of_formals hfound]
  · obtain ⟨b, -, rfl⟩ := mem_map.mp ht'
    rfl
  · -- The body was expanded by the gates before the called one; for what is known there, all gates say the same.
    rw [Effect.outside?_of_bits (e := .apply name _ (found.map Bit.target)) hne (h.mapM_operand? hmem), Effect.row?,
      hresolve]
    dsimp only [bind, Option.bind_some]
    rw [Program.expansion?_of_isKnown h.resolved h.split hknown, hxs]
    rfl

/-- In a call that comes to something, a statement of the body comes to the same in the place of the call, under the
guard of the call. -/
theorem inlined_effect (hin : e.IsInBody lib earlier g.params g.args) (hsuits : e.Suits lib p.gates [])
    (hxs : e.inside? home (Program.expansion? lib home earlier.reverse) env (g.args.zip bits) = some xs)
    (guard : Option Condition) : (e.inlined env (g.args.zip refs)).StandsFor lib p home regs guard xs := by
  cases e with
  | measure qubit clbit => cases hxs
  | barrier targets => exact h.inlined_barrier hin hxs guard
  | apply name params targets => exact h.inlined_apply hin hsuits hxs guard

end GateDef.IsCalledOn

/-! ## Statements in a call -/

namespace Node

variable {formals : List (String × Ref)}

/-- The guard of a call goes to the statement; a barrier does not mind it. -/
theorem expansion?_inlined (he : n.effect? = some e) (hmeasure : ∀ q c, e ≠ .measure q c)
    (hguard : guard.mapM (Guard.condition? regs) = some condition) (home : CircuitId) (gates : List GateDef) :
    (∀ g ∈ Program.guardOf? (n.inlined env formals guard), g ∈ guard) ∧
      (n.inlined env formals guard).expansion? lib home regs gates =
        (e.inlined env formals).outside? lib home regs gates condition := by
  have heffect : (n.inlined env formals guard).effect? = some (e.inlined env formals) := by
    rw [effect?_inlined, he]
    rfl
  have hkept : Program.guardOf? (n.inlined env formals guard) = guard →
      (∀ g ∈ Program.guardOf? (n.inlined env formals guard), g ∈ guard) ∧
        (n.inlined env formals guard).expansion? lib home regs gates =
          (e.inlined env formals).outside? lib home regs gates condition := by
    intro hsame
    rw [expansion?, heffect, hsame, hguard]
    exact ⟨fun _ hg => hg, rfl⟩
  cases Program.hasEffect_of_effect? he with
  | barrier =>
    rw [expansion?, heffect]
    exact ⟨fun g hg => (by cases hg), rfl⟩
  | measure => exact absurd rfl (hmeasure _ _)
  | _ => exact hkept rfl

end Node

namespace GateDef.IsCalledOn

variable (h : g.IsCalledOn lib p regs earlier later refs bits)
include h

/-- A statement of the body can stand in the place of the call, where the call comes to something. -/
theorem inlined_node (hdeclared : ∀ c ∈ guard, c.IsIn p.cregs)
    (hguard : guard.mapM (Guard.condition? regs) = some condition)
    (hn : n ∈ g.body)
    (hxs : n.effect?.bind (Effect.inside? home (Program.expansion? lib home earlier.reverse) env (g.args.zip bits)) =
      some xs) : p.Admits lib (n.inlined env (g.args.zip refs) guard) ∧
      (∀ e ∈ (n.inlined env (g.args.zip refs) guard).effect?, ∀ t ∈ e.targets, t.2.isSome) ∧
      (n.inlined env (g.args.zip refs) guard).expansion? lib home regs p.gates =
        some (xs.map (Instruction.under condition)) := by
  have hg : g ∈ p.gates := h.split ▸ mem_append_right _ mem_cons_self
  have hgate := h.resolved.gates earlier g later h.split
  obtain ⟨e, he, hin⟩ := hgate.body n hn
  rw [show n.effect? = some e from he, Option.bind_some] at hxs
  have hstands := h.inlined_effect hin (h.valid.gates g hg n hn e he) hxs condition
  obtain ⟨hkept, hexpansion⟩ : (∀ c ∈ Program.guardOf? (n.inlined env (g.args.zip refs) guard), c ∈ guard) ∧
      (n.inlined env (g.args.zip refs) guard).expansion? lib home regs p.gates =
        (e.inlined env (g.args.zip refs)).outside? lib home regs p.gates condition :=
    Node.expansion?_inlined he (fun q c hmeasure => by rw [hmeasure] at hin; exact hin) hguard home p.gates
  have heffect : (n.inlined env (g.args.zip refs) guard).effect? = some (e.inlined env (g.args.zip refs)) := by
    rw [Node.effect?_inlined, he]
    rfl
  refine ⟨⟨⟨⟨_, heffect, hstands.inProgram⟩, fun c hc => hdeclared c (hkept c hc), ?_⟩, fun e' he' => ?_⟩,
    fun e' he' => ?_, ?_⟩
  · rw [Node.IsPlaced, Node.placeOf_inlined]
    exact hgate.placed n hn
  · cases heffect.symm.trans he'
    exact hstands.valid
  · cases heffect.symm.trans he'
    exact hstands.bits
  · exact hexpansion.trans hstands.outside

/-- What a call on bits comes to, statement by statement. -/
theorem exists_parts
    (hrefs : operands.mapM Term.reference = .ok refs) (hne : refs ≠ []) {ys : List Instruction}
    (hys : (Node.call g.name position params operands guard).expansion? lib home regs p.gates = some ys) :
    ∃ condition parts, guard.mapM (Guard.condition? regs) = some condition ∧
      (g.body.mapM fun n : Node => n.effect?.bind (Effect.inside? home (Program.expansion? lib home earlier.reverse)
        (g.env (Term.values params)) (g.args.zip bits))) = some parts ∧
      parts.flatten.map (Instruction.under condition) = ys := by
  have htargets := h.named.map_target
  have heffect : (Node.call g.name position params operands guard).effect? =
      some (.apply g.name params (bits.map Bit.target)) := by
    rw [Node.effect?, Program.mapM_target?_eq_some.mpr ⟨refs, hrefs, htargets⟩]
    rfl
  have hbits : bits.map Bit.target ≠ [] := htargets ▸ fun hnil => hne (map_eq_nil_iff.mp hnil)
  obtain ⟨e, he, hys⟩ := Option.bind_eq_some_iff.mp hys
  cases heffect.symm.trans he
  obtain ⟨condition, hcondition, hys⟩ := Option.bind_eq_some_iff.mp hys
  rw [Effect.outside?_of_bits (e := .apply g.name params (bits.map Bit.target)) hbits
    (h.mapM_operand? fun _ hb => hb)] at hys
  obtain ⟨values, hvalues, hys⟩ := Option.bind_eq_some_iff.mp hys
  obtain ⟨zs, hzs, hys⟩ := Option.bind_eq_some_iff.mp hys
  -- Of all gates, the called one is looked up, and its body comes to what it comes to by the gates before it.
  have hsplit : p.gates = earlier ++ g :: (later ++ []) := by rw [append_nil, h.split]
  rw [h.split, Action.expansion?_of_declared h.resolved hsplit values bits] at hzs
  split at hzs
  · obtain ⟨parts, hparts, rfl⟩ := Option.map_eq_some_iff.mp hzs
    refine ⟨condition, parts, hcondition, ?_, Option.some.inj hys⟩
    rw [Term.values, hvalues]
    exact hparts
  · cases hzs

end GateDef.IsCalledOn

/-! ## Programs -/

namespace Program

section

variable {before after : List Node} (h : p.IsAccepted lib regs xs)
  (hbody : p.body = before ++ .call name position params operands guard :: after)
  (hgate : findGate? p.gates name = some g) (hrefs : operands.mapM Term.reference = .ok refs)
  (hindex : ∀ r ∈ refs, r.index.isSome)
include h hbody hgate hrefs hindex

/-- In an accepted program, a call on single bits gets what its gate takes. -/
theorem IsAccepted.exists_isCalledOn : ∃ earlier later bits, g.name = name ∧ refs ≠ [] ∧
    (∀ c ∈ guard, c.IsIn p.cregs) ∧ g.IsCalledOn lib p regs earlier later refs bits := by
  have hadmits := h.admits _ (hbody ▸ mem_append_right _ mem_cons_self)
  have heffect : (Node.call name position params operands guard).effect? =
      some (.apply name params (refs.map Ref.target)) := by
    rw [Node.effect?, mapM_target?_eq_some.mpr ⟨refs, hrefs, rfl⟩]
    rfl
  obtain ⟨e, he, hin⟩ := hadmits.resolved.effect
  cases heffect.symm.trans he
  obtain ⟨-, -, hne, hin⟩ := hin
  obtain ⟨htakes, hapart, -⟩ := hadmits.valid _ heffect
  rw [Takes, hgate] at htakes
  have hprovides := h.declares.provides h.resolved.names
  obtain ⟨bits, hnamed, hoperands⟩ := Target.exists_bits hprovides.names hprovides.quantum
    (fun r hr => hin _ (mem_map_of_mem hr)) hindex
  have htargets : refs.map Ref.target = bits.map Bit.target := hnamed.map_target
  obtain ⟨earlier, later, hsplit⟩ := append_of_mem (mem_of_find?_eq_some hgate)
  refine ⟨earlier, later, bits, findGate?_name hgate, fun hnil => hne (map_eq_nil_iff.mpr hnil),
    hadmits.resolved.guarded, h.resolved, h.valid, hsplit, hnamed, hoperands, fun b hb => ?_, ?_, ?_⟩
  · exact hin _ (htargets ▸ mem_map_of_mem hb)
  · rw [htargets] at hapart
    exact Bit.distinct_of_nodup_target hapart.1
  · rw [← htakes.2, htargets, length_map]

/-- The statements of the body can stand in the place of a call, and come to what it comes to. -/
theorem IsAccepted.inlined : (∀ n ∈ g.inlined params refs guard, p.Admits lib n ∧
      ∀ e ∈ n.effect?, ∀ t ∈ e.targets, t.2.isSome) ∧
    ∀ home ys, (Node.call name position params operands guard).expansion? lib home regs p.gates = some ys →
      Node.expansions? lib home regs p.gates (g.inlined params refs guard) = some ys := by
  obtain ⟨earlier, later, bits, rfl, hne, hdeclared, hcalled⟩ := h.exists_isCalledOn hbody hgate hrefs hindex
  constructor
  · obtain ⟨home, ys, hys⟩ := h.exists_expansion? (hbody ▸ mem_append_right _ mem_cons_self)
    obtain ⟨condition, parts, hcondition, hparts, -⟩ := hcalled.exists_parts hrefs hne hys
    intro m hm
    obtain ⟨n, hn, rfl⟩ := mem_map.mp hm
    obtain ⟨part, -, hpart⟩ := exists_of_forall₂ (mapM_eq_some.mp hparts).flip n hn
    obtain ⟨hadmits, htargets, -⟩ := hcalled.inlined_node hdeclared hcondition hn hpart
    exact ⟨hadmits, htargets⟩
  · intro home ys hys
    obtain ⟨condition, parts, hcondition, hparts, rfl⟩ := hcalled.exists_parts hrefs hne hys
    have hall : ((g.inlined params refs guard).mapM (Node.expansion? lib home regs p.gates)) =
        some (parts.map (List.map (Instruction.under condition))) := by
      rw [GateDef.inlined, mapM_eq_some, forall₂_map_left_iff, forall₂_map_right_iff]
      exact forall₂_imp_of_mem (mapM_eq_some.mp hparts) fun n hn part hpart =>
        (hcalled.inlined_node hdeclared hcondition hn hpart).2.2
    rw [Node.expansions?, hall, map_flatten]
    rfl

end

/-- A call that is replaced by the body of its gate leaves the circuit as it is. -/
theorem IsAccepted.inlines (h : p.IsAccepted lib regs xs) (hpq : p.Inlines q) : q.IsAccepted lib regs xs := by
  cases hpq with
  | @call before after name position params operands guard g refs hbody hgate hrefs hindex =>
    obtain ⟨hadmits, hsame⟩ := h.inlined hbody hgate hrefs hindex
    refine h.replace (hbody.trans (append_cons _ _ _)) (fun n hn => (hadmits n hn).1) fun home ys hys => ?_
    rw [Node.expansions?_singleton] at hys
    exact hsame home ys hys

end Program

/-! ## Full expansion -/

def Effect.gate? : Effect → Option String
  | .apply name _ _ => some name
  | _ => none

def Node.gate? (n : Node) : Option String := n.effect?.bind Effect.gate?

theorem Node.gate?_inlined (env : Tree.Env) (formals : List (String × Ref)) (guard : Option Guard) (n : Node) :
    (n.inlined env formals guard).gate? = n.gate? := by
  rw [gate?, gate?, effect?_inlined]
  cases n.effect? with
  | none => rfl
  | some e => cases e <;> rfl

namespace Program

/-- No statement calls a declared gate. -/
def IsFlat (p : Program) : Prop := ∀ n ∈ p.body, ∀ name ∈ n.gate?, findGate? p.gates name = none

/-- Declared gates are called on single bits only. -/
def CallsOnBits (p : Program) : Prop :=
  ∀ n ∈ p.body, ∀ e ∈ n.effect?, ∀ name ∈ e.gate?, (findGate? p.gates name).isSome → ∀ t ∈ e.targets, t.2.isSome

/-- How many calls there are to replace in an application. The declared gates are given with the latest one first. -/
def calls : List GateDef → String → Nat
  | [], _ => 0
  | g :: earlier, name =>
    if g.name = name then 1 + (g.body.map fun n => (n.gate?.map (calls earlier)).getD 0).sum else calls earlier name

/-- How many calls there are to replace in some statements. -/
def callsIn (gates : List GateDef) (ns : List Node) : Nat := (ns.map fun n => (n.gate?.map (calls gates)).getD 0).sum

theorem calls_of_forall_ne {gates : List GateDef} (h : ∀ g ∈ gates, g.name ≠ name)
    (more : List GateDef) : calls (gates ++ more) name = calls more name := by
  induction gates with
  | nil => rfl
  | cons g gates ih =>
    rw [forall_mem_cons] at h
    rw [cons_append, calls, if_neg h.1, ih h.2]

theorem callsIn_append (gates : List GateDef) (ns ms : List Node) :
    callsIn gates (ns ++ ms) = callsIn gates ns + callsIn gates ms := by
  rw [callsIn, map_append, sum_append]
  rfl

/-- A call counts once, and the statements of the body count besides. -/
theorem calls_of_declared (hres : p.Resolved lib)
    (hsplit : p.gates = earlier ++ g :: later) : calls p.gates.reverse g.name = 1 + callsIn p.gates.reverse g.body := by
  have hne : ∀ f ∈ later.reverse, f.name ≠ g.name := fun f hf =>
    Action.name_ne_of_later hres hsplit f (mem_reverse.mp hf)
  -- A body calls what was declared before, for which the later gates do not count.
  have hbody : ∀ n ∈ g.body,
      (n.gate?.map (calls p.gates.reverse)).getD 0 = (n.gate?.map (calls earlier.reverse)).getD 0 := by
    intro n hn
    obtain ⟨e, he, hin⟩ := (hres.gates earlier g later hsplit).body n hn
    rw [Node.gate?, show n.effect? = some e from he]
    cases e with
    | apply name params targets =>
      have hknown := calls_of_forall_ne (name_ne_of_isKnown hres hsplit hin.1) earlier.reverse
      rw [← reverse_append, ← hsplit] at hknown
      exact hknown
    | _ => rfl
  rw [callsIn, map_congr_left hbody, hsplit, reverse_append, reverse_cons, append_assoc,
    calls_of_forall_ne hne, singleton_append, calls, if_pos rfl]

/-- Replacing a call leaves one call less to replace. -/
theorem Inlines.callsIn (hres : p.Resolved lib) (hpq : p.Inlines q) :
    Program.callsIn q.gates.reverse q.body + 1 = Program.callsIn p.gates.reverse p.body := by
  cases hpq with
  | @call before after name position params operands guard g refs hbody hgate hrefs hindex =>
    obtain ⟨earlier, later, hsplit⟩ := append_of_mem (mem_of_find?_eq_some hgate)
    obtain rfl : g.name = name := findGate?_name hgate
    have hcall : Program.callsIn p.gates.reverse [.call g.name position params operands guard] =
        1 + Program.callsIn p.gates.reverse g.body := by
      rw [← calls_of_declared hres hsplit, Program.callsIn, map_singleton, sum_singleton, Node.gate?, Node.effect?,
        mapM_target?_eq_some.mpr ⟨refs, hrefs, rfl⟩]
      rfl
    have hinlined : Program.callsIn p.gates.reverse (g.inlined params refs guard) =
        Program.callsIn p.gates.reverse g.body := by
      rw [Program.callsIn, GateDef.inlined, map_map, Program.callsIn]
      exact congrArg List.sum (map_congr_left fun n _ => by
        rw [Function.comp_apply, Node.gate?_inlined])
    show Program.callsIn p.gates.reverse (before ++ g.inlined params refs guard ++ after) + 1 = _
    rw [hbody, append_cons, callsIn_append, callsIn_append, callsIn_append, callsIn_append, hcall, hinlined]
    omega

theorem contains_libraryName (hlib : lib.HasPrimitives) {op : String} (h : libraryName op = .ok name) :
    lib.contains name := by
  unfold libraryName at h
  rw [Library.contains]
  split at h
  · cases h
    obtain ⟨f, hf, -⟩ := hlib.unitary
    rw [hf]
    rfl
  · split at h
    · cases h
      obtain ⟨f, hf, -⟩ := hlib.controlledNot
      rw [hf]
      rfl
    · cases h

/-- As long as a declared gate is called, a call can be replaced. -/
theorem exists_inlines (hlib : lib.HasPrimitives) (hres : p.Resolved lib) (hbits : p.CallsOnBits) (hflat : ¬ p.IsFlat) :
    ∃ q, p.Inlines q := by
  unfold IsFlat at hflat
  push Not at hflat
  obtain ⟨n, hn, name, hname, hgate⟩ := hflat
  obtain ⟨g, hg⟩ := Option.ne_none_iff_exists'.mp hgate
  obtain ⟨e, he, hname⟩ := Option.bind_eq_some_iff.mp hname
  obtain ⟨before, after, hbody⟩ := append_of_mem hn
  cases hasEffect_of_effect? he with
  | call hrefs =>
    cases hname
    refine ⟨_, .call hbody hg hrefs fun r hr => ?_⟩
    exact hbits _ hn _ he name rfl (by rw [hg]; rfl) r.target (mem_map_of_mem hr)
  | primitive hname' =>
    cases hname
    rw [hres.ownNames.findGate?_library (contains_libraryName hlib hname')] at hg
    cases hg
  | _ => cases hname

theorem IsAccepted.callsOnBits (h : p.IsAccepted lib regs xs) (hbits : p.CallsOnBits) (hpq : p.Inlines q) :
    q.CallsOnBits := by
  cases hpq with
  | @call before after name position params operands guard g refs hbody hgate hrefs hindex =>
    intro n hn e he name hname hdeclared
    have hn : n ∈ before ++ g.inlined params refs guard ++ after := hn
    rw [append_assoc, mem_append, mem_append] at hn
    rcases hn with hn | hn | hn
    · exact hbits n (hbody ▸ mem_append_left _ hn) e he name hname hdeclared
    · exact ((h.inlined hbody hgate hrefs hindex).1 n hn).2 e he
    · exact hbits n (hbody ▸ mem_append_right _ (mem_cons_of_mem _ hn)) e he name hname hdeclared

/-- Calls on single bits can be replaced until none is left. -/
theorem IsAccepted.exists_isFlat (hlib : lib.HasPrimitives) (h : p.IsAccepted lib regs xs)
    (hbits : p.CallsOnBits) : ∃ q, Relation.ReflTransGen Inlines p q ∧ q.IsFlat := by
  -- Every replacement leaves one call less, so that the induction is on the number of calls.
  induction hcalls : callsIn p.gates.reverse p.body generalizing p with
  | zero =>
    refine ⟨p, .refl, ?_⟩
    by_contra hflat
    obtain ⟨q, hpq⟩ := exists_inlines hlib h.resolved hbits hflat
    have hless := hpq.callsIn h.resolved
    omega
  | succ n ih =>
    by_cases hflat : p.IsFlat
    · exact ⟨p, .refl, hflat⟩
    · obtain ⟨q, hpq⟩ := exists_inlines hlib h.resolved hbits hflat
      have hless := hpq.callsIn h.resolved
      have hbits' := h.callsOnBits hbits hpq
      obtain ⟨r, hqr, hr⟩ := ih (h.inlines hpq) hbits' (by omega)
      exact ⟨r, .head hpq hqr, hr⟩

theorem IsAccepted.inlines_many (h : p.IsAccepted lib regs xs) (hpq : Relation.ReflTransGen Inlines p q) :
    q.IsAccepted lib regs xs := by
  induction hpq with
  | refl => exact h
  | tail _ hstep ih => exact ih.inlines hstep

/-- In a program that was read, calls of declared gates on single bits can be replaced by the bodies of the gates, one
after the other: wherever the program becomes a circuit, what it is turned into becomes a circuit with the same text.
If the program becomes a circuit and calls declared gates on single bits only, it can be turned into one that calls
none. -/
theorem isMatchedBy_of_inlines {text : String} (hparse : parse .packaged text = .ok p) :
    (∀ q, Relation.ReflTransGen Inlines p q → p.IsMatchedBy q) ∧
      ∀ name s c t, (Action.lower .packaged name p).Returns s c t → p.CallsOnBits →
        ∃ q, Relation.ReflTransGen Inlines p q ∧ q.IsFlat := by
  have hres := resolved_of_parse Library.packaged_hasPrimitives hparse
  constructor
  · exact fun q hpq => isMatchedBy_of_isAccepted hres (isShort_of_parse hparse) fun registers xs hp =>
      hp.inlines_many hpq
  · intro name s c t hreturns hbits
    obtain ⟨registers, xs, hp⟩ := exists_isAccepted hres (isShort_of_parse hparse) hreturns
    exact hp.exists_isFlat Library.packaged_hasPrimitives hbits

/-- A guarded call of a gate that calls another one and holds a barrier, with a parameter that is handed on. -/
def nestedCall : String :=
  "OPENQASM 2.0; include \"qelib1.inc\"; gate f(t) a,b\x7brx(t/2) b; CX b,a;\x7d " ++
    "gate g(t) a,b\x7bf(-t) b,a; barrier a,b; U(t,0,t) a; f(1) a,b;\x7d " ++
    "qreg q[3]; creg c[2]; h q; if(c==2) g(3) q[2],q[0]; measure q[0]->c[1];"

theorem isMatchedBy_of_inlines_nestedCall : ∃ p q, parse .packaged nestedCall = .ok p ∧
    (∃ c t, (Action.lower .packaged none p).Returns {} c t) ∧ ¬ p.IsFlat ∧ Relation.ReflTransGen Inlines p q ∧
    q.IsFlat ∧ p.IsMatchedBy q := by
  have hchecked : ((parse .packaged nestedCall).toOption.map fun p =>
      (p.body.any fun n => n.gate?.any fun name => (findGate? p.gates name).isSome,
        p.body.all fun n => n.gate? == some "h" || (n.effect?.all fun e => e.targets.all fun t => t.2.isSome),
        (findGate? p.gates "h").isSome, ((Action.lower .packaged none p).outcome {}).1.toOption.isSome)) =
      some (true, true, false, true) := by
    decide +kernel
  obtain ⟨p, hp, hfacts⟩ := Option.map_eq_some_iff.mp hchecked
  obtain ⟨hcall, hfacts⟩ := Prod.mk.inj hfacts
  obtain ⟨hbits, hfacts⟩ := Prod.mk.inj hfacts
  obtain ⟨hlibrary, hlower⟩ := Prod.mk.inj hfacts
  have hflat : ¬ p.IsFlat := by
    intro hflat
    obtain ⟨n, hn, hname⟩ := List.any_eq_true.mp hcall
    obtain ⟨name, hname, hsome⟩ := (Option.any_eq_true _ _).mp hname
    rw [hflat n hn name hname] at hsome
    cases hsome
  have hcalls : p.CallsOnBits := by
    intro n hn e he name hname hdeclared
    rcases Bool.or_eq_true_iff.mp (List.all_eq_true.mp hbits n hn) with hh | htargets
    · have hgate : n.gate? = some name := Option.bind_eq_some_iff.mpr ⟨e, he, hname⟩
      rw [hgate, beq_iff_eq, Option.some.injEq] at hh
      rw [hh, hlibrary] at hdeclared
      cases hdeclared
    · rw [show n.effect? = some e from he] at htargets
      exact List.all_eq_true.mp htargets
  obtain ⟨c, hc⟩ := Option.isSome_iff_exists.mp hlower
  have hreturns := Action.returns_of_toOption hc
  obtain ⟨hmatched, hexists⟩ := isMatchedBy_of_inlines (toOption_eq_some.mp hp)
  obtain ⟨q, hpq, hq⟩ := hexists none {} c _ hreturns hcalls
  exact ⟨p, q, toOption_eq_some.mp hp, ⟨c, _, hreturns⟩, hflat, hpq, hq, hmatched q hpq⟩

end Program

end QasmCircuit
