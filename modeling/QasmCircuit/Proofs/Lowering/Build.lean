import QasmCircuit.Proofs.Lowering.Meaning

/-!
# Gates built from declarations

A call of a declared gate makes a gate whose body is built statement by statement. What it holds, once it is
flattened, is what the call comes to (`Action.buildsCall_buildComposite`); it fails only where the call comes to
nothing, for one of the reasons of `Program.Refusal`. Declarations only call what was declared before them, so that
the bound on the depth is never reached.
-/

namespace QasmCircuit

open Outcome List Instruction

variable {g : GateDef} {bits : List Bit} {targets : List Target} {s t : Store} {p : Program} {lib : Library}
  {regs : List Register} {home : CircuitId} {before after earlier later : List GateDef} {values : List Float}
  {i : InstructionId} {refs : List Ref} {position : Position} {env : Tree.Env} {guard : Option Guard}

/-! ## Bound arguments -/

namespace GateDef

variable {found : List Bit}

theorem exists_formals (hlength : bits.length = g.args.length) (htargets : ∀ t ∈ targets, t.1 ∈ g.args) :
    ∃ found, targets.mapM (fun t => (g.args.zip bits).lookup t.1) = some found := by
  have hall : ∀ t ∈ targets, ∃ b, (g.args.zip bits).lookup t.1 = some b := by
    intro t ht
    have hmem := htargets t ht
    rw [← map_fst_zip hlength.ge] at hmem
    obtain ⟨e, he, hname⟩ := mem_map.mp hmem
    cases hlookup : (g.args.zip bits).lookup t.1 with
    | some b => exact ⟨b, rfl⟩
    | none =>
      exact absurd hname.symm (bne_iff_ne.mp (lookup_eq_none_iff.mp hlookup e he))
  obtain ⟨found, hfound⟩ := Outcome.exists_forall₂ hall
  exact ⟨found, mapM_eq_some.mpr hfound⟩

theorem mem_of_formals (hfound : targets.mapM (fun t => (g.args.zip bits).lookup t.1) = some found) :
    ∀ b ∈ found, b ∈ bits := by
  intro b hb
  obtain ⟨t, -, hlookup⟩ := exists_of_forall₂ (mapM_eq_some.mp hfound) b hb
  exact (of_mem_zip (mem_of_lookup hlookup)).2

theorem length_of_formals (hfound : targets.mapM (fun t => (g.args.zip bits).lookup t.1) = some found) :
    found.length = targets.length :=
  (mapM_eq_some.mp hfound).length_eq.symm

/-- Arguments with different names are bound to different bits. -/
theorem distinct_of_formals (hbits : Bit.distinct bits) (hlength : bits.length = g.args.length)
    (hnames : (targets.map Prod.fst).Nodup)
    (hfound : targets.mapM (fun t => (g.args.zip bits).lookup t.1) = some found) : Bit.distinct found := by
  rw [Bit.distinct_iff] at hbits ⊢
  have hkeys : ((g.args.zip bits).map fun e => e.2.key).Nodup := by
    have hsnd : (g.args.zip bits).map Prod.snd = bits := map_snd_zip hlength.le
    have hmap : ((g.args.zip bits).map fun e => e.2.key) = ((g.args.zip bits).map Prod.snd).map Bit.key := by
      rw [map_map]
      rfl
    rw [hmap, hsnd]
    exact hbits
  rw [mapM_eq_some] at hfound
  induction hfound with
  | nil => exact nodup_nil
  | @cons t b targets found htb hrest ih =>
    rw [map_cons, nodup_cons] at hnames ⊢
    refine ⟨fun hmem => ?_, ih hnames.2⟩
    obtain ⟨b', hb', hkey⟩ := mem_map.mp hmem
    obtain ⟨t', ht', htb'⟩ := exists_of_forall₂ hrest b' hb'
    have hsame := inj_on_of_nodup_map hkeys (mem_of_lookup htb) (mem_of_lookup htb') hkey.symm
    exact hnames.1 (mem_map.mpr ⟨t', ht', (congrArg Prod.fst hsame).symm⟩)

theorem mapM_boundOperand (hnames : g.args.Nodup) (hlength : bits.length = g.args.length) {terms : List Term}
    (hrefs : terms.mapM Term.reference = .ok refs)
    (hfound : (refs.map Ref.target).mapM (fun t => (g.args.zip bits).lookup t.1) = some found) :
    terms.mapM (Program.boundOperand (g.args.zip (bits.map .bit))) = .ok (found.map .bit) := by
  have hzip : g.args.zip (bits.map Argument.bit) = (g.args.zip bits).map fun e => (e.1, Argument.bit e.2) := by
    rw [zip_map_right]
    rfl
  have hfst : (g.args.zip (bits.map Argument.bit)).map Prod.fst = g.args := by
    refine map_fst_zip ?_
    rw [length_map]
    exact hlength.ge
  have hone : ∀ {t : Term} {r : Ref} {b : Bit}, t.reference = .ok r → (g.args.zip bits).lookup r.name = some b →
      Program.boundOperand (g.args.zip (bits.map .bit)) t = .ok (.bit b) := by
    intro t r b hr hb
    have hmem : (r.name, Argument.bit b) ∈ g.args.zip (bits.map Argument.bit) := by
      rw [hzip]
      exact mem_map.mpr ⟨_, mem_of_lookup hb, rfl⟩
    have hlookup : (g.args.zip (bits.map Argument.bit)).reverse.lookup r.name = some (.bit b) := by
      rw [lookup_reverse (by rw [hfst]; exact hnames)]
      exact lookup_of_mem (by rw [hfst]; exact hnames) hmem
    refine bind_eq_ok.mpr ⟨r, hr, ?_⟩
    rw [hlookup]
    rfl
  rw [mapM_eq_ok] at hrefs ⊢
  rw [mapM_eq_some, forall₂_map_left_iff] at hfound
  rw [forall₂_map_right_iff]
  induction hrefs generalizing found with
  | nil =>
    cases hfound
    exact .nil
  | cons hr _ ih =>
    cases hfound with
    | cons hb hrest => exact .cons (hone hr hb) (ih hrest)

theorem env_eq (g : GateDef) (values : List Float) :
    ((g.params.zip (Program.valueArguments values)).reverse.map fun b => (b.1, Action.boundValue b.2)) =
      g.env values := by
  rw [Program.valueArguments, zip_map_right, ← map_reverse, map_map]
  rfl

end GateDef

/-! ## Operands that are bits -/

/-- Without indices, different targets have different names. -/
theorem Target.nodup_names {ts : List Target} (h : ts.Nodup) (hwhole : ∀ t ∈ ts, t.2 = none) :
    (ts.map Prod.fst).Nodup := by
  refine h.map_on fun t ht t' ht' hname => Prod.ext hname ?_
  rw [hwhole t ht, hwhole t' ht']

variable {n : Node} {name : String} {params : List Term}

theorem Argument.pairwise_apart_bits (h : Bit.distinct bits) : (bits.map Argument.bit).Pairwise Argument.Apart := by
  rw [Bit.distinct_iff, Nodup, pairwise_map] at h
  rw [pairwise_map]
  refine h.imp fun hne p hp q hq => ?_
  rw [mem_singleton.mp hp, mem_singleton.mp hq]
  exact hne

theorem rows?_bits (bits : List Bit) : rows? (bits.map .bit) = some [bits] := by
  have hnone : Action.registerSizes (bits.map .bit) = [] := by
    refine Action.registerSizes_eq_nil.mpr fun r hr => ?_
    obtain ⟨b, -, hb⟩ := mem_map.mp hr
    cases hb
  have hrow : (bits.map Argument.bit).mapM (Argument.bitAt? 0) = some bits := by
    rw [mapM_eq_some, forall₂_map_left_iff, forall₂_same]
    exact fun _ _ => rfl
  rw [rows?, hnone]
  exact congrArg (Option.map _) hrow

theorem isOperand_bits {takes : Bit → Prop} (h : ∀ b ∈ bits, b.IsIn regs .quantum ∧ takes b) :
    ∀ a ∈ bits.map Argument.bit, a.IsOperand regs .quantum ∧ ∀ b ∈ a.bits, takes b := by
  intro a ha
  obtain ⟨b, hb, rfl⟩ := mem_map.mp ha
  refine ⟨(h b hb).1, fun b' hb' => ?_⟩
  rw [mem_singleton.mp hb']
  exact (h b hb).2

theorem flatMap_bits_bit (bits : List Bit) : (bits.map Argument.bit).flatMap Argument.bits = bits := by
  rw [flatMap_map]
  exact flatMap_singleton' bits

namespace Program

def IsApplication (n : Node) : Prop :=
  (∃ name position params operands guard, n = .call name position params operands guard) ∨
    ∃ op first second guard position, n = .primitive op first second guard position

/-- A statement with an effect is an application, which can be written as a call, a barrier or a measurement. -/
theorem effect?_cases {e : Effect} (he : n.effect? = some e) :
    (∃ name params operands refs, e = .apply name params (refs.map Ref.target) ∧
      operands.mapM Term.reference = .ok refs ∧ IsApplication n ∧
      ∀ env, callParts env n = callParts env (.call name .origin params operands (guardOf? n))) ∨
    (∃ position operands refs, e = .barrier (refs.map Ref.target) ∧ operands.mapM Term.reference = .ok refs ∧
      n = .barrier position operands) ∨
    ∃ qubit clbit position guard q c, e = .measure q.target c.target ∧ qubit.reference = .ok q ∧
      clbit.reference = .ok c ∧ n = .measure qubit clbit position guard := by
  cases hasEffect_of_effect? he with
  | call hrefs => exact .inl ⟨_, _, _, _, rfl, hrefs, .inl ⟨_, _, _, _, _, rfl⟩, fun env => rfl⟩
  | @primitive op first second guard position name refs hname hrefs =>
    refine .inl ⟨name, _, refs.map .ref, refs, rfl, ?_, .inr ⟨_, _, _, _, _, rfl⟩, fun env => ?_⟩
    · rw [mapM_eq_ok, forall₂_map_left_iff, forall₂_same]
      intro r hr
      obtain ⟨t, -, ht⟩ := exists_of_forall₂ (mapM_eq_ok.mp hrefs) r hr
      cases t with
      | ref r' =>
        rw [Term.toQuantum] at ht
        by_cases hkind : r'.kind = .primitive
        · rw [if_pos hkind] at ht
          cases ht
          rfl
        · rw [if_neg hkind] at ht
          cases ht
      | _ => cases ht
    · rw [callParts, callParts, hname]
      dsimp only [bind, Except.bind]
      rw [hrefs]
  | measure hq hc => exact .inr (.inr ⟨_, _, _, _, _, _, rfl, hq, hc, rfl⟩)
  | barrier hrefs => exact .inr (.inl ⟨_, _, _, rfl, hrefs, rfl⟩)

end Program

/-! ## Runs of steps that build -/

namespace Action

open Store Program

section

variable {α β γ δ : Type} {a : Action α} {f : α → Action γ} {meaning : Option β} {R : Fault → Prop}
  {Q : β → α → Store → Prop} {Q' : δ → γ → Store → Prop}

/-- A step does what something comes to; where that is nothing, it is refused. -/
def Answers (a : Action α) (s : Store) (meaning : Option β) (R : Fault → Prop) (Q : β → α → Store → Prop) : Prop :=
  a.Ends s (fun v t => ∃ b, meaning = some b ∧ Q b v t) fun e _ => meaning = none ∧ R e

/-- Steps one after the other do what their meanings come to together. -/
theorem Answers.bind {k : β → Option δ} (ha : a.Answers s meaning R Q)
    (hf : ∀ b v t, Q b v t → (f v).Answers t (k b) R Q') : (a >>= f).Answers s (meaning >>= k) R Q' := by
  refine ends_bind.mpr (Ends.imp ha (fun v t hv => ?_) fun e _ he => ?_)
  · obtain ⟨b, rfl, hb⟩ := hv
    exact hf b v t hb
  · obtain ⟨rfl, he⟩ := he
    exact ⟨rfl, he⟩

theorem Answers.map {k : β → δ} {Q' : δ → α → Store → Prop} (ha : a.Answers s meaning R Q)
    (hQ : ∀ b v t, Q b v t → Q' (k b) v t) : a.Answers s (meaning >>= fun b => pure (k b)) R Q' := by
  refine Ends.imp ha (fun v t hv => ?_) fun e _ he => ?_
  · obtain ⟨b, rfl, hb⟩ := hv
    exact ⟨k b, rfl, hQ b v t hb⟩
  · obtain ⟨rfl, he⟩ := he
    exact ⟨rfl, he⟩

variable {Q : β → γ → Store → Prop}

theorem Returns.answers_bind {v : α} (h : a.Returns s v t) :
    (a >>= f).Answers s meaning R Q ↔ (f v).Answers t meaning R Q :=
  h.ends_bind

theorem answers_of_error {x : Except Fault α} {e : Fault} (hx : x = .error e) (he : R e) :
    (lift x >>= f).Answers s none R Q := by
  rw [hx]
  exact ends_bind.mpr ⟨rfl, he⟩

end

/-- What the steps of a run build, they build together. -/
theorem answers_forM_builds {takes : Bit → Prop}
    {P : Instruction → Prop} {k : Container} {R : Fault → Prop} {f : Node → Action Unit}
    {meaning : Node → Option (List Instruction)} {ns : List Node}
    (hstep : ∀ n ∈ ns, ∀ s, s.Site lib regs home takes k →
      (f n).Answers s (meaning n) R fun xs _ t => Builds P k xs s t)
    (hk : s.Site lib regs home takes k) :
    (ns.forM f).Answers s (ns.mapM meaning) R fun parts _ t => Builds P k parts.flatten s t := by
  induction ns generalizing s with
  | nil => exact ⟨[], rfl, .refl P k s⟩
  | cons n ns ih =>
    rw [forall_mem_cons] at hstep
    rw [mapM_cons]
    refine (hstep.1 s hk).bind fun xs _ t hbuilds => ?_
    obtain ⟨is, hfilled, -⟩ := id hbuilds
    exact (ih hstep.2 (hk.filled hfilled)).map fun parts _ u hrest => hbuilds.trans hrest hk.isOld

end Action

/-! ## Values of parameters -/

namespace Program

theorem exists_lookup_env (hvalues : values.length = g.params.length) :
    ∀ a ∈ g.params, ∃ x : Float, (g.env values).lookup a = some (.real x) := by
  intro a ha
  have hreal : ∀ {d : Datum}, (a, d) ∈ g.env values → ∃ x : Float, d = .real x := by
    intro d hd
    obtain ⟨b, -, hb⟩ := mem_map.mp hd
    exact ⟨b.2, (congrArg Prod.snd hb).symm⟩
  cases hlookup : (g.env values).lookup a with
  | some d =>
    obtain ⟨x, rfl⟩ := hreal (mem_of_lookup hlookup)
    exact ⟨x, rfl⟩
  | none =>
    rw [← map_fst_zip hvalues.ge] at ha
    obtain ⟨b, hb, hname⟩ := mem_map.mp ha
    have hmem : (b.1, Datum.real b.2) ∈ g.env values :=
      mem_map.mpr ⟨b, mem_reverse.mpr hb, rfl⟩
    exact absurd hname.symm (bne_iff_ne.mp (lookup_eq_none_iff.mp hlookup _ hmem))

/-- The parameters of a statement have values, or one of them is undefined. -/
theorem resolve_cases (lib : Library)
    {bound : List String} (hn : p.Runs n env) (he : n.effect? = some (.apply name params targets))
    (hparams : ∀ t ∈ params, t.IsParam bound) (henv : ∀ a ∈ bound, ∃ x : Float, env.lookup a = some (.real x)) :
    (∃ values, params.mapM (Term.resolve env) = .ok values ∧ values.length = params.length) ∨
      ∃ e, params.mapM (Term.resolve env) = .error e ∧ Refuses lib p e := by
  cases hvalues : params.mapM (Term.resolve env) with
  | ok values => exact .inl ⟨values, rfl, (mapM_eq_ok.mp hvalues).length_eq.symm⟩
  | error e =>
    refine .inr ⟨e, rfl, ?_⟩
    obtain ⟨t, ht, herror⟩ := exists_of_mapM_eq_error hvalues
    cases hparams t ht with
    | value x => cases herror
    | @symbolic expr hs hbound =>
      have hevaluate : expr.toTree.evaluate env = .error e := herror
      have hfails : Fails
          (fun e => ∃ reason position, reason.IsUndefined ∧ e = .problem (.expression reason) position none)
          (expr.toTree.evaluate env) := by
        refine Expr.fails_evaluate hs (fun a ha _ => ?_) fun reason position h => ⟨reason, position, h, rfl⟩
        obtain ⟨x, hx⟩ := henv a (hbound a ha)
        exact Tree.fails_lookup hx _ fails_ok
      obtain ⟨reason, position, hreason, rfl⟩ := hfails e hevaluate
      have hvalue : expr.value? env = none := by
        cases hsome : expr.value? env with
        | none => rfl
        | some x =>
          rw [(expr.evaluate_iff env).mpr hsome] at hevaluate
          cases hevaluate
      exact (Refusal.expression hn he ht hvalue hreason).refuses _ _

end Program

/-! ## Bodies -/

/-- An instruction of a circuit; if it has a body, it is one of some declared gates. -/
def Instruction.IsOf (home : CircuitId) (gates : List GateDef) (x : Instruction) : Prop :=
  x.circuit = home ∧ ∀ name body inverted, x.operation = .composite name body inverted → ∃ g ∈ gates, g.name = name

theorem Instruction.isOf_of_leaf {x : Instruction} (hleaf : x.isComposite = false) (gates : List GateDef) :
    x.IsOf x.circuit gates := by
  refine ⟨rfl, fun name body inverted hop => ?_⟩
  exact absurd_leaf hleaf hop

/-- A step makes a gate with a body, which is not attached to anything. -/
structure Store.Makes (home : CircuitId) (gates : List GateDef) (name : String) (values : List Float) (bits : List Bit)
    (xs : List Instruction) (s : Store) (j : InstructionId) (t : Store) : Prop where
  adds : s.Adds t
  circuits : ∀ c d, s.circuit? c = some d → t.circuit? c = some d
  placed : Store.Placed (IsOf home gates) s.instructions.size t [j] xs
  gate : ∃ body, t.instruction? j = some ((Instruction.shell home name values bits).extended body)

/-- The circuit of a store that gates are built for. -/
def Store.Hosts (lib : Library) (regs : List Register) (home : CircuitId) (s : Store) : Prop :=
  ∃ c, s.circuit? home = some c ∧ c.registers = regs ∧ c.library = lib

/-- Bits that a gate can act on. -/
structure Bit.AreOperands (regs : List Register) (bits : List Bit) : Prop where
  isIn : ∀ b ∈ bits, b.IsIn regs .quantum
  distinct : Bit.distinct bits

namespace Action

open Store Program

/-- What a step that makes a gate has to do. -/
def BuildsCall (lib : Library) (p : Program) (regs : List Register) (home : CircuitId) (before : List GateDef)
    (nested : GateDef → List Argument → List Argument → Action InstructionId) : Prop :=
  ∀ (g : GateDef) (values : List Float) (bits : List Bit) (s : Store), findGate? before g.name = some g →
    p.Calls g values → values.length = g.params.length → bits.length = g.args.length → bits ≠ [] →
    Bit.AreOperands regs bits → s.Hosts lib regs home →
    (nested g (valueArguments values) (bits.map .bit)).Answers s
      (expansion? lib home before.reverse g.name values bits) (Refuses lib p)
      (s.Makes home p.gates g.name values bits)

theorem isInBody_of_mem (hg : g.Resolved lib before) {e : Effect} (hn : n ∈ g.body) (he : n.effect? = some e) :
    e.IsInBody lib before g.params g.args := by
  obtain ⟨e', he', hbody⟩ := hg.body n hn
  cases he.symm.trans he'
  exact hbody

variable {takes : Bit → Prop} {gates : List GateDef}
  {nested : GateDef → List Argument → List Argument → Action InstructionId} {operands : List Term}

/-- A gate with a body can be attached wherever its bits are taken. -/
theorem suits_shell (hbits : Bit.AreOperands regs bits) (htakes : ∀ b ∈ bits, takes b)
    (k : Container) (name : String) (values : List Float) (body : List InstructionId) :
    ((Instruction.shell home name values bits).extended body).Suits regs home takes k ∧
      Bit.distinct ((Instruction.shell home name values bits).extended body).splitArgs.1 := by
  rw [extended_of_composite rfl body]
  exact ⟨⟨rfl, fun b hb => ⟨hbits.isIn b hb, htakes b hb⟩, forall_mem_nil _, rfl, rfl⟩, hbits.distinct⟩

/-- A name that no declaration has stands for a gate of the library. -/
theorem expansion?_of_library (hname : findGate? gates name = none)
    (hbefore : before ⊆ gates) : expansion? lib home before.reverse name = expansion? lib home [] name := by
  have hne : ∀ f ∈ before.reverse, f.name ≠ name := fun f hf heq =>
    find?_eq_none.mp hname f (hbefore (mem_reverse.mp hf)) (beq_iff_eq.mpr heq)
  rw [← expansion?_of_forall_ne hne [], append_nil]

/-- A gate is made and attached to another one. -/
theorem answers_attachNested (hnested : BuildsCall lib p regs home before nested)
    (hg : findGate? before g.name = some g) (hcalls : p.Calls g values) (hvalues : values.length = g.params.length)
    (hlength : bits.length = g.args.length) (hne : bits ≠ []) (hbits : Bit.AreOperands regs bits)
    {k : Container} (hk : s.Site lib regs home takes k) (htakes : ∀ b ∈ bits, takes b) :
    (nested g (valueArguments values) (bits.map .bit) >>= fun j => attach k j).Answers s
      (expansion? lib home before.reverse g.name values bits) (Refuses lib p) fun xs _ t =>
        Builds (IsOf home p.gates) k xs s t := by
  refine Ends.bind (hnested g values bits s hg hcalls hvalues hlength hne hbits hk.circuit) fun j t ht => ?_
  obtain ⟨xs, hxs, hmakes⟩ := ht
  obtain ⟨body, hbody⟩ := hmakes.gate
  have hfilled : Filled k [] s t := .of_adds hmakes.adds hmakes.circuits k
  obtain ⟨hsuits, hdistinct⟩ := suits_shell hbits htakes k g.name values body
  refine (ends_attach (hk.filled hfilled) hbody hsuits).imp (fun _ u hu => ?_) fun e u hu => ?_
  · refine ⟨xs, hxs, [j], hfilled.trans hu.1, hmakes.placed.congr hu.2.1.ge fun i hi hlt => ?_⟩
    exact hu.1.same hk.isOld hi hlt
  · rw [hdistinct] at hu
    cases hu.2

theorem buildStatement_eq {formals : List (String × Argument)}
    (hn : IsApplication n)
    (hparts : callParts env n = callParts env (.call name position params operands guard)) :
    buildStatement nested gates i env formals n =
      buildStatement nested gates i env formals (.call name position params operands guard) := by
  rcases hn with ⟨_, _, _, _, _, rfl⟩ | ⟨_, _, _, _, _, rfl⟩ <;> exact congrArg (fun x => lift x >>= _) hparts

section

variable (hsplit : p.gates = before ++ g :: after) (hres : p.Resolved lib)
include hsplit hres

variable (hvalid : p.IsValid lib) (hcalls : p.Calls g values) (hvalues : values.length = g.params.length)
  (hlength : bits.length = g.args.length) (hbits : Bit.AreOperands regs bits)
  {nested : GateDef → List Argument → List Argument → Action InstructionId}
  (hnested : BuildsCall lib p regs home before nested)
include hvalid hcalls hvalues hlength hbits hnested

theorem answers_buildCall (hn : n ∈ g.body)
    (he : n.effect? = some (.apply name params (refs.map Ref.target))) (hrefs : operands.mapM Term.reference = .ok refs)
    (hk : s.Site lib regs home (fun b => b.among bits) (.gate i)) :
    (buildStatement nested p.gates i (g.env values) (g.args.zip (bits.map .bit))
        (.call name position params operands guard)).Answers s
      (Effect.inside? home (expansion? lib home before.reverse) (g.env values) (g.args.zip bits)
        (.apply name params (refs.map Ref.target))) (Refuses lib p) fun xs _ t =>
          Builds (IsOf home p.gates) (.gate i) xs s t := by
  have hg := hres.gates before g after hsplit
  obtain ⟨hknown, hparams, hne, htargets⟩ := isInBody_of_mem hg hn he
  have hmem : g ∈ p.gates := by
    rw [hsplit]
    exact mem_append_right _ mem_cons_self
  obtain ⟨htakes, hdistinct, -⟩ := hvalid.gates g hmem n hn _ he
  obtain ⟨found, hfound⟩ := GateDef.exists_formals hlength fun t ht => (htargets t ht).1
  have hinside := GateDef.mem_of_formals hfound
  have hamong : ∀ b ∈ found, b.among bits :=
    fun b hb => Bit.among_iff.mpr (mem_map_of_mem (hinside b hb))
  have hoperate : Bit.AreOperands regs found :=
    ⟨fun b hb => hbits.isIn b (hinside b hb),
      GateDef.distinct_of_formals hbits.distinct hlength (Target.nodup_names hdistinct.1 fun t ht => (htargets t ht).2)
        hfound⟩
  have hcount : found.length = (refs.map Ref.target).length := GateDef.length_of_formals hfound
  have hoperands := returns_lift s (GateDef.mapM_boundOperand hg.args_once hlength hrefs hfound)
  rcases resolve_cases lib (hcalls.runs hn) he hparams (exists_lookup_env hvalues) with
    ⟨ws, hws, hlengths⟩ | ⟨e, herror, hrefuses⟩
  · have hmeaning : Effect.inside? home (expansion? lib home before.reverse) (g.env values) (g.args.zip bits)
        (.apply name params (refs.map Ref.target)) = expansion? lib home before.reverse name ws found := by
      rw [Effect.inside?, hws, hfound]
      rfl
    have hparts : (lift (callParts (g.env values) (.call name position params operands guard))).Returns s
        (name, ws, operands) s := by
      rw [callParts, hws]
      rfl
    rw [hmeaning]
    refine hparts.answers_bind.mpr (hoperands.answers_bind.mpr ?_)
    unfold Takes at htakes
    cases hf : findGate? p.gates name with
    | some f =>
      rw [hf] at htakes
      obtain rfl := findGate?_name hf
      refine answers_attachNested hnested (findGate?_before hsplit hres.ownNames hknown hf)
        ⟨n, _, _, _, _, hcalls.runs hn, he, hf, hws⟩ (hlengths.trans htakes.1) (hcount.trans htakes.2) ?_ hoperate hk
        hamong
      rintro rfl
      exact hne (eq_nil_of_length_eq_zero hcount.symm)
    | none =>
      rw [hf] at htakes
      obtain ⟨F, hF, hparamCount, harity⟩ := htakes
      have harity' : ((found.map Argument.bit).length : Int) = F.arity := by
        rw [length_map, hcount]
        exact harity
      have hbefore : before ⊆ p.gates := by
        rw [hsplit]
        exact subset_append_left _ _
      rw [expansion?_of_library hf hbefore, expansion?, hF, Option.bind_eq_bind, Option.bind_some]
      refine ends_bind.mpr ((ends_applyGate (P := IsOf home p.gates) hk hF (hlengths.trans hparamCount)
        harity' (isOperand_bits fun b hb => ⟨hoperate.isIn b hb, hamong b hb⟩)
        (Argument.pairwise_apart_bits hoperate.distinct) (rows?_bits found)
        fun cs _ => isOf_of_leaf rfl p.gates).imp (fun v t ht => ?_) fun e t hfailed => ?_)
      · rw [ht.1]
        exact ⟨_, rfl, v.ids, ht.2⟩
      · obtain ⟨hall, x, hx, hinfinite, rfl⟩ := hfailed
        rw [hall]
        have he' : n.effect? = some (.apply F.name params (refs.map Ref.target)) := by
          rw [Library.name_of_find? hF]
          exact he
        exact ⟨rfl, (Refusal.parameter (hcalls.runs hn) he' (Library.find?_name hF) hws hx hinfinite).refuses _ _⟩
  · have hmeaning : Effect.inside? home (expansion? lib home before.reverse) (g.env values) (g.args.zip bits)
        (.apply name params (refs.map Ref.target)) = none := by
      rw [Effect.inside?, herror]
      rfl
    have hparts : callParts (g.env values) (.call name position params operands guard) = .error e := by
      rw [callParts, herror]
      rfl
    rw [hmeaning]
    exact answers_of_error hparts hrefuses

omit hvalid hvalues hnested in
theorem answers_buildBarrier (hn : Node.barrier position operands ∈ g.body)
    (he : (Node.barrier position operands).effect? = some (.barrier (refs.map Ref.target)))
    (hrefs : operands.mapM Term.reference = .ok refs)
    (hk : s.Site lib regs home (fun b => b.among bits) (.gate i)) :
    (buildStatement nested p.gates i (g.env values) (g.args.zip (bits.map .bit)) (.barrier position operands)).Answers s
      (Effect.inside? home (expansion? lib home before.reverse) (g.env values) (g.args.zip bits)
        (.barrier (refs.map Ref.target))) (Refuses lib p) fun xs _ t =>
          Builds (IsOf home p.gates) (.gate i) xs s t := by
  have hg := hres.gates before g after hsplit
  obtain ⟨hne, htargets⟩ := isInBody_of_mem hg hn he
  obtain ⟨found, hfound⟩ := GateDef.exists_formals hlength fun t ht => (htargets t ht).1
  have hinside := GateDef.mem_of_formals hfound
  have hcount : found.length = (refs.map Ref.target).length := GateDef.length_of_formals hfound
  have hne' : found.map Argument.bit ≠ [] := by
    rw [Ne, map_eq_nil_iff]
    rintro rfl
    exact hne (eq_nil_of_length_eq_zero hcount.symm)
  have hoperands := returns_lift s (GateDef.mapM_boundOperand hg.args_once hlength hrefs hfound)
  have hmeaning : Effect.inside? home (expansion? lib home before.reverse) (g.env values) (g.args.zip bits)
      (.barrier (refs.map Ref.target)) = if Bit.distinct found then some [.fence home found] else none := by
    rw [Effect.inside?, hfound]
    rfl
  have hbarrier := ends_barrier (P := IsOf home p.gates) hk hne'
    (isOperand_bits fun b hb => ⟨hbits.isIn b (hinside b hb), Bit.among_iff.mpr (mem_map_of_mem (hinside b hb))⟩)
    (isOf_of_leaf rfl p.gates)
  rw [flatMap_bits_bit] at hbarrier
  rw [hmeaning]
  refine hoperands.ends_bind.mpr (ends_bind.mpr (hbarrier.imp (fun j t ht => ?_) fun e t hfailed => ?_))
  · rw [ht.2.1]
    exact ⟨_, rfl, [j], ht.2.2⟩
  · rw [Argument.isListable_bits] at hfailed
    obtain ⟨hrepeats, rfl⟩ := hfailed.resolve_left fun h => Bool.true_eq_false.mp h.1
    rw [hrepeats]
    refine ⟨rfl, (Refusal.barrier hcalls hn he fun hnodup => ?_).refuses _ _⟩
    rw [GateDef.distinct_of_formals hbits.distinct hlength (Target.nodup_names hnodup fun t ht => (htargets t ht).2)
      hfound] at hrepeats
    cases hrepeats

theorem answers_buildStatement (hn : n ∈ g.body) (hk : s.Site lib regs home (fun b => b.among bits) (.gate i)) :
    (buildStatement nested p.gates i (g.env values) (g.args.zip (bits.map .bit)) n).Answers s
      (n.effect?.bind (Effect.inside? home (expansion? lib home before.reverse) (g.env values) (g.args.zip bits)))
      (Refuses lib p) fun xs _ t => Builds (IsOf home p.gates) (.gate i) xs s t := by
  obtain ⟨e, he, hbody⟩ := (hres.gates before g after hsplit).body n hn
  rw [he, Option.bind_some]
  rcases effect?_cases he with ⟨name, params, operands, refs, rfl, hrefs, happlication, hparts⟩ |
    ⟨position, operands, refs, rfl, hrefs, rfl⟩ | ⟨_, _, _, _, _, _, rfl, _⟩
  · rw [buildStatement_eq happlication (hparts (g.env values))]
    exact answers_buildCall hsplit hres hvalid hcalls hvalues hlength hbits hnested hn he hrefs hk
  · exact answers_buildBarrier hsplit hres hcalls hlength hbits hn he hrefs hk
  · exact hbody.elim

end

/-- A gate that is declared later has another name. -/
theorem name_ne_of_later (hres : p.Resolved lib)
    (hsplit : p.gates = earlier ++ g :: later) : ∀ f ∈ later, f.name ≠ g.name := by
  intro f hf hname
  obtain ⟨between, rest, rfl⟩ := append_of_mem hf
  have hsplit' : p.gates = (earlier ++ g :: between) ++ f :: rest := by
    rw [hsplit, append_assoc]
    rfl
  have hnone := (hres.gates _ f rest hsplit').fresh.1
  have hmem : g ∈ earlier ++ g :: between := mem_append_right _ mem_cons_self
  exact find?_eq_none.mp hnone g hmem (beq_iff_eq.mpr hname.symm)

/-- A call of a declared gate comes to what the statements of its body come to. -/
theorem expansion?_of_declared (hres : p.Resolved lib)
    (hsplit : p.gates = earlier ++ g :: (later ++ after)) (values : List Float) (bits : List Bit) :
    expansion? lib home (earlier ++ g :: later).reverse g.name values bits = if isIdentifier g.name then
        (g.body.mapM fun n : Node => n.effect?.bind (Effect.inside? home (expansion? lib home earlier.reverse)
        (g.env values)
          (g.args.zip bits))).map List.flatten else none := by
  have hne : ∀ f ∈ later.reverse, f.name ≠ g.name := fun f hf =>
    name_ne_of_later hres hsplit f (mem_append_left after (mem_reverse.mp hf))
  rw [reverse_append, reverse_cons, append_assoc, expansion?_of_forall_ne hne, singleton_append,
    expansion?, if_pos rfl, Option.map_eq_bind]
  rfl

/-- A gate is made as soon as its body is built. -/
theorem makes_of_builds (hg : g ∈ p.gates) {xs : List Instruction}
    (h : Builds (IsOf home p.gates) (.gate s.instructions.size) xs (s.push (.shell home g.name values bits)) t) :
    s.Makes home p.gates g.name values bits xs s.instructions.size t := by
  obtain ⟨is, hfilled, hplaced⟩ := h
  have hsize : (s.push (.shell home g.name values bits)).instructions.size = s.instructions.size + 1 :=
    Array.size_push _
  have hgate : t.instruction? s.instructions.size = some ((Instruction.shell home g.name values bits).extended is) := by
    rw [hfilled.old _ _ (s.instruction?_push_self _), Container.forGate, if_pos rfl]
  have hextended : (Instruction.shell home g.name values bits).extended is =
      { Instruction.shell home g.name values bits with operation := .composite g.name ([] ++ is) false } :=
    extended_of_composite rfl is
  refine ⟨⟨?_, fun i hi => ?_⟩, fun c d hd => ?_, ?_, is, hgate⟩
  · exact (s.adds_push _).size_le.trans hfilled.size_le
  · obtain ⟨x, hx⟩ : ∃ x, s.instruction? i = some x := ⟨_, Array.getElem?_eq_getElem hi⟩
    have hpush := ((s.adds_push (.shell home g.name values bits)).old i hi).trans hx
    rw [hfilled.old i x hpush, Container.forGate, if_neg (Nat.ne_of_gt hi), extended_nil, hx]
  · have hcircuit := hfilled.circuits c d hd
    rw [Container.forCircuit, append_nil] at hcircuit
    exact hcircuit
  · rw [hsize] at hplaced
    rw [hextended, nil_append] at hgate
    refine hplaced.gate hgate rfl ⟨rfl, fun name body inverted hop => ⟨g, hg, ?_⟩⟩
    cases hop
    rfl

/-- A gate is made for every call of a declaration, and holds what the call comes to. -/
theorem buildsCall_buildComposite (hres : p.Resolved lib) (hvalid : p.IsValid lib)
    (hnames : (regs.map Register.name).Nodup) {depth : Nat}
    (hsplit : p.gates = before ++ after) (hdepth : before.length < depth) :
    BuildsCall lib p regs home before (buildComposite home p.gates depth) := by
  induction depth generalizing before after with
  | zero => exact absurd hdepth (Nat.not_lt_zero _)
  | succ depth ih =>
    intro g values bits s hg hcalls hvalues hlength hne hbits hhosts
    -- The declaration stands somewhere before the given number, and what it calls stands before it.
    obtain ⟨earlier, later, rfl⟩ := append_of_mem (mem_of_find?_eq_some hg)
    have hsplit' : p.gates = earlier ++ g :: (later ++ after) := by
      rw [hsplit, append_assoc]
      rfl
    have hdepth' : earlier.length < depth := by
      rw [length_append, length_cons] at hdepth
      omega
    have hmem : g ∈ p.gates := by
      rw [hsplit']
      exact mem_append_right _ mem_cons_self
    have hresolved := hres.gates _ g _ hsplit'
    have hcode : buildComposite home p.gates (depth + 1) g (valueArguments values) (bits.map .bit) =
        newComposite home (.datum (.text g.name)) (bits.map .bit) (.ok (valueArguments values)) >>= fun i =>
          g.body.forM (buildStatement (buildComposite home p.gates depth) p.gates i (g.env values)
            (g.args.zip (bits.map .bit))) >>= fun _ => pure i := by
      rw [← g.env_eq]
      rfl
    rw [hcode, expansion?_of_declared hres hsplit']
    refine ends_bind.mpr ((ends_newComposite_of_bits hnames hhosts hresolved.fresh.2.1 hne hbits.isIn
      hbits.distinct).imp (fun i t ht => ?_) fun e t he => ?_)
    · obtain ⟨hname, rfl, rfl⟩ := ht
      rw [hname, if_pos rfl]
      have hk : (s.push (.shell home g.name values bits)).Site lib regs home (fun b => b.among bits)
          (.gate s.instructions.size) :=
        ⟨hnames, hhosts, _, s.instruction?_push_self _, rfl, rfl, fun _ hb => hb⟩
      have hbody := answers_forM_builds (fun n hn u hu => answers_buildStatement hsplit' hres hvalid hcalls hvalues
        hlength
        hbits (ih hsplit' hdepth') hn hu) hk
      rw [Option.map_eq_bind]
      exact hbody.bind fun parts _ u hbuilds => ⟨_, rfl, makes_of_builds hmem hbuilds⟩
    · obtain ⟨hname, rfl⟩ := he
      rw [hname]
      rw [isIdentifier_of_isWord hresolved.word] at hname
      exact ⟨rfl, (Refusal.gate hcalls hname).refuses _ _⟩

end Action

end QasmCircuit
