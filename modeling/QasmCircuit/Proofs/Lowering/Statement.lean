import QasmCircuit.Proofs.Lowering.Build

/-!
# Statements on the registers of a circuit

A statement of a checked program acts on declared registers and on bits of them. It is applied row by row, and a guard
is put on all that it made. So every statement builds what it comes to (`Action.answers_lowerStatement`), or it fails
for a reason of `Program.Refusal`.
-/

namespace QasmCircuit

open Outcome List Instruction Argument

variable {regs : List Register} {lib : Library} {home : CircuitId} {gates : List GateDef} {args : List Argument}
  {n : Node} {guard : Option Guard} {position : Position} {r : Register} {e : Effect} {values : List Float}
  {targets : List Target} {params operands : List Term}

/-- Some registers have names of their own, and those that a program declares are among them. -/
structure Program.Provides (p : Program) (regs : List Register) : Prop where
  names : (regs.map Register.name).Nodup
  quantum : Target.Declared regs .quantum p.qregs
  classical : Target.Declared regs .classical p.cregs

theorem Program.fits_iff {value : Int} (h : 0 ≤ value) : Program.fits value r.size ↔ r.fits value := by
  rw [Program.fits, Register.fits, Bool.or_eq_true, Bool.and_eq_true, Bool.or_eq_true, decide_eq_true_eq,
    decide_eq_true_eq, decide_eq_true_eq, decide_eq_true_eq, beq_iff_eq]
  omega

namespace Target

variable {declared : List (String × Int)} {kind : RegisterKind}

theorem Declared.lookup (h : Declared regs kind declared) (hnames : (regs.map Register.name).Nodup)
    (hr : r ∈ regs) (hin : IsIn declared (r.name, none)) : declared.lookup r.name = some (r.size : Int) := by
  obtain ⟨size, hsize, -⟩ := hin
  obtain ⟨q, hq, hname, -, rfl⟩ := h _ _ hsize
  obtain rfl : q = r := inj_on_of_nodup_map hnames hq hr hname
  exact hsize

theorem Declared.sizeOf? (h : Declared regs kind declared) (hnames : (regs.map Register.name).Nodup)
    (honce : (declared.map Prod.fst).Nodup) (hr : r ∈ regs)
    (hin : IsIn declared (r.name, none)) : Program.sizeOf? declared r.name = some (r.size : Int) := by
  rw [Program.sizeOf?, lookup_reverse honce]
  exact h.lookup hnames hr hin

end Target

namespace Effect

/-- A guard goes to everything that a statement makes. -/
theorem outside?_guard (h : ∀ targets, e ≠ .barrier targets) (guard : Option Condition) :
    e.outside? lib home regs gates guard =
      (e.outside? lib home regs gates none).map (List.map (Instruction.under guard)) := by
  have hnone : ∀ xs : List Instruction, xs.map (Instruction.under none) = xs := map_id'
  cases e with
  | barrier targets => exact absurd rfl (h targets)
  | _ =>
    simp only [outside?, Option.bind_eq_bind, Option.map_bind, Function.comp_def, Option.map_some, hnone]

end Effect

theorem Instruction.IsOf.guarded {x : Instruction} (h : x.IsOf home gates) (g : Condition) :
    (x.guarded g).IsOf home gates := by
  rw [IsOf, x.guarded_circuit, x.guarded_operation]
  exact h

/-- An application has made gates or measurements and attached them to a circuit. -/
structure Store.Applies (home : CircuitId) (gates : List GateDef) (xs : List Instruction) (s : Store) (v : Applied)
    (t : Store) : Prop where
  filled : Store.Filled (.circuit home) v.ids s t
  placed : Store.Placed (IsOf home gates) s.instructions.size t v.ids xs
  noBarrier : ∀ i ∈ v.ids, ∀ x, t.instruction? i = some x → x.isBarrier = false

namespace Action

open Store Program

variable {p : Program} {s : Store} {name : String} {rs : List (List Bit)}

/-! ## Rows of a declared gate -/

theorem ends_attach_forM {takes : Bit → Prop} (hk : s.Site lib regs home takes (.circuit home))
    {is : List InstructionId} (his : ∀ i ∈ is, ∃ x, s.instruction? i = some x ∧
      x.Suits regs home takes (.circuit home) ∧ Bit.distinct x.splitArgs.1) :
    (is.forM (attach (.circuit home))).Attains s
      fun _ t => Filled (.circuit home) is s t ∧ t.instructions.size = s.instructions.size := by
  induction is generalizing s with
  | nil => exact ⟨.refl _ s, rfl⟩
  | cons i is ih =>
    rw [forall_mem_cons] at his
    obtain ⟨⟨x, hx, hsuits, hdistinct⟩, his⟩ := his
    refine Ends.bind ((ends_attach hk hx hsuits).imp (fun _ _ h => h) fun _ _ h => ?_) fun _ t ht => ?_
    · rw [hdistinct] at h
      cases h.2
    · have hrest := ih (hk.filled ht.1) fun j hj => by
        obtain ⟨y, hy, hsuits⟩ := his j hj
        have hy' := ht.1.old j y hy
        rw [Container.forGate, extended_nil] at hy'
        exact ⟨y, hy', hsuits⟩
      exact hrest.map fun _ u hu => ⟨ht.1.trans hu.1, hu.2.trans ht.2.1⟩

/-- Gates that are made one after the other have nothing in common. -/
theorem answers_mapM_makes {f : List Bit → Action InstructionId} {meaning : List Bit → Option (List Instruction)}
    {R : Fault → Prop} (hstep : ∀ bits ∈ rs, ∀ s, s.Hosts lib regs home →
      (f bits).Answers s (meaning bits) R (s.Makes home p.gates name values bits)) (hs : s.Hosts lib regs home) :
    (rs.mapM f).Answers s (rs.mapM meaning) R fun parts is t => s.Adds t ∧
      (∀ c d, s.circuit? c = some d → t.circuit? c = some d) ∧
      Placed (IsOf home p.gates) s.instructions.size t is parts.flatten ∧
      Forall₂ (fun i bits => ∃ body, t.instruction? i =
        some ((Instruction.shell home name values bits).extended body)) is rs := by
  induction rs generalizing s with
  | nil => exact ⟨[], rfl, .refl s, fun _ _ h => h, .nil _ _ s, .nil⟩
  | cons bits rs ih =>
    rw [forall_mem_cons] at hstep
    rw [mapM_cons, mapM_cons]
    refine (hstep.1 s hs).bind fun xs j t hmakes => ?_
    obtain ⟨c, hc, hhosts⟩ := hs
    refine (ih hstep.2 ⟨c, hmakes.circuits home c hc, hhosts⟩).bind fun parts is u hu => ⟨_, rfl, ?_⟩
    obtain ⟨hadds, hcircuits, hplaced, hgates⟩ := hu
    refine ⟨hmakes.adds.trans hadds, fun c d hd => hcircuits c d (hmakes.circuits c d hd), ?_, ?_⟩
    · exact hmakes.placed.append hplaced hmakes.adds.size_le hadds.size_le fun i _ hi => hadds.old i hi
    · obtain ⟨body, hbody⟩ := hmakes.gate
      exact .cons ⟨body, (hadds.old j (instruction?_lt hbody)).trans hbody⟩ hgates

/-- The bits of a row can be acted on, if the operands have nothing in common. -/
theorem areOperands_of_mem_rows? (hargs : ∀ a ∈ args, a.IsOperand regs .quantum)
    (hapart : args.Pairwise Argument.Apart) (hrows : rows? args = some rs) {bits : List Bit} (hbits : bits ∈ rs) :
    Bit.AreOperands regs bits ∧ bits.length = args.length := by
  obtain ⟨index, hindex⟩ := mapM_bitAt?_of_mem_rows? hrows bits hbits
  have hall := mapM_eq_some.mp hindex
  refine ⟨⟨fun b hb => ?_, distinct_of_mapM_bitAt? hapart hindex⟩, hall.length_eq.symm⟩
  obtain ⟨a, ha, hab⟩ := exists_of_forall₂ hall b hb
  exact isIn_of_mem_bits (hargs a ha) (mem_bits_of_bitAt? hab)

section

variable (hres : p.Resolved lib) (hvalid : p.IsValid lib)
  (hk : s.Site lib regs home (fun _ => True) (.circuit home))
include hres hvalid hk

/-- A declared gate is applied to all rows of its operands. -/
theorem answers_applyComposite {g : GateDef} (hg : findGate? p.gates g.name = some g)
    (hcalls : p.Calls g values) (hvalues : values.length = g.params.length) (hne : args ≠ [])
    (hlength : args.length = g.args.length) (hargs : ∀ a ∈ args, a.IsOperand regs .quantum)
    (hapart : args.Pairwise Argument.Apart) (hrows : rows? args = some rs) :
    (applyComposite home p.gates g values args).Answers s
      (rs.mapM (expansion? lib home p.gates.reverse g.name values)) (Refuses lib p) fun parts v t =>
        s.Applies home p.gates parts.flatten v t := by
  have hrow := fun {bits : List Bit} (hbits : bits ∈ rs) => areOperands_of_mem_rows? hargs hapart hrows hbits
  have hbuild : BuildsCall lib p regs home p.gates (buildComposite home p.gates (p.gates.length + 1)) :=
    buildsCall_buildComposite hres hvalid hk.names (append_nil _).symm (Nat.lt_succ_self _)
  have hlift := returns_lift s (gateRows_of_rows? hrows)
  have hmakes := answers_mapM_makes (fun bits (hbits : bits ∈ rs) t (ht : t.Hosts lib regs home) => by
    obtain ⟨hoperands, hcount⟩ := hrow hbits
    refine hbuild g values bits t hg hcalls hvalues (hcount.trans hlength) ?_ hoperands ht
    rintro rfl
    exact hne (eq_nil_of_length_eq_zero hcount.symm)) hk.circuit
  refine hlift.ends_bind.mpr ?_
  rw [mapM_map]
  refine Ends.bind hmakes fun is t ht => ?_
  obtain ⟨parts, hparts, hadds, hcircuits, hplaced, hgates⟩ := ht
  have hst : Filled (.circuit home) [] s t := .of_adds hadds hcircuits _
  have hattach := ends_attach_forM (hk.filled hst) fun i (hi : i ∈ is) => by
    obtain ⟨bits, hbits, body, hbody⟩ := exists_of_forall₂ hgates.flip i hi
    exact ⟨_, hbody, suits_shell (hrow hbits).1 (fun _ _ => trivial) _ _ _ _⟩
  refine Ends.bind (hattach.ends fun _ _ h => h) fun _ u hu => ?_
  refine ⟨parts, hparts, ?_, ?_, ?_⟩
  all_goals rw [ids_applied_of_rows? hrows hgates.length_eq]
  · exact hst.trans hu.1
  · exact hplaced.congr hu.2.ge fun i hi hlt => hu.1.same trivial hi hlt
  · intro i hi x hx
    obtain ⟨bits, -, body, hbody⟩ := exists_of_forall₂ hgates.flip i hi
    have hsame := hu.1.old i _ hbody
    rw [Container.forGate, extended_nil, extended_of_composite rfl] at hsame
    cases hx.symm.trans hsame
    rfl

end

/-! ## Applications -/

theorem rows?_ne_nil (h : rows? args = some rs) : rs ≠ [] := by
  unfold rows? at h
  split at h
  · obtain ⟨bits, -, rfl⟩ := Option.map_eq_some_iff.mp h
    exact cons_ne_nil _ _
  · next size hsizes =>
    obtain ⟨r, -, rfl⟩ := mem_registerSizes.mp (hsizes ▸ mem_singleton_self size)
    rintro rfl
    have hlength := (mapM_eq_some.mp h).length_eq
    rw [length_range] at hlength
    exact r.size_pos.ne' hlength
  · cases h

/-- A gate of the library comes to one instruction in every row. -/
theorem mapM_expansion?_library {f : Family} (hf : lib.find? name = some f) (values : List Float) (hne : rs ≠ []) :
    rs.mapM (expansion? lib home [] name values) =
      if values.all Float.isFinite then some (rs.map fun bits => [.gate home f values bits]) else none := by
  have hone : ∀ bits, expansion? lib home [] name values bits =
      if values.all Float.isFinite then some [.gate home f values bits] else none := by
    intro bits
    rw [expansion?, hf]
    rfl
  cases hfinite : values.all Float.isFinite with
  | true =>
    rw [if_pos rfl, mapM_eq_some, forall₂_map_right_iff, forall₂_same]
    intro bits _
    rw [hone, hfinite, if_pos rfl]
  | false =>
    obtain ⟨bits, rest, rfl⟩ := exists_cons_of_ne_nil hne
    rw [mapM_cons, hone, hfinite]
    rfl

/-- Whole registers that are named together have one size. -/
theorem size_eq_of_oneSize (hp : p.Provides regs) (hres : p.Resolved lib)
    (hargs : ∀ a ∈ args, a.IsOperand regs .quantum) (htargets : ∀ t ∈ targets, t.IsIn p.qregs)
    (hmap : args.map Argument.target? = targets.map some) (hone : Target.OneSize p.qregs targets) :
    ∀ q r, Argument.register q ∈ args → Argument.register r ∈ args → q.size = r.size := by
  have honce : (p.qregs.map Prod.fst).Nodup := by
    have hnames := hres.names
    rw [map_append] at hnames
    exact (nodup_append.mp hnames).1
  have hmem : ∀ q, Argument.register q ∈ args → (q.name, none) ∈ targets := by
    intro q hq
    have hsome : some (q.name, none) ∈ targets.map some := by
      rw [← hmap]
      exact mem_map.mpr ⟨_, hq, rfl⟩
    obtain ⟨t, ht, heq⟩ := mem_map.mp hsome
    cases heq
    exact ht
  intro q r hq hr
  have hsize := fun {q : Register} (hq : Argument.register q ∈ args) =>
    hp.quantum.sizeOf? hp.names honce (hargs _ hq).1 (htargets _ (hmem q hq))
  exact Int.ofNat.inj (hone _ (hmem q hq) _ (hmem r hr) rfl rfl _ _ (hsize hq) (hsize hr))

theorem applyStatement_eq
    (hn : IsApplication n) (hparts : callParts [] n = callParts [] (.call name position params operands guard)) :
    applyStatement home regs p.gates n =
      applyStatement home regs p.gates (.call name position params operands guard) := by
  rcases hn with ⟨_, _, _, _, _, rfl⟩ | ⟨_, _, _, _, _, rfl⟩ <;> exact congrArg (fun x => lift x >>= _) hparts

section

variable (hres : p.Resolved lib) (hvalid : p.IsValid lib) (hp : p.Provides regs)
  (hk : s.Site lib regs home (fun _ => True) (.circuit home)) (hn : n ∈ p.body)
include hres hvalid hp hk hn

/-- A gate is applied to declared registers and to bits of them. -/
theorem answers_applyCall {refs : List Ref}
    (he : n.effect? = some (.apply name params (refs.map Ref.target)))
    (hrefs : operands.mapM Term.reference = .ok refs) :
    (applyStatement home regs p.gates (.call name position params operands guard)).Answers s
      (Effect.outside? lib home regs p.gates none (.apply name params (refs.map Ref.target))) (Refuses lib p)
      (s.Applies home p.gates) := by
  obtain ⟨hknown, hparams, hne, htargets⟩ := hres.isInProgram hn he
  obtain ⟨htakes, hdistinct, hone⟩ := hvalid.body n hn _ he
  obtain ⟨args, hmapped, hargs, hmap⟩ := Target.exists_mapM_operand? hp.names hp.quantum htargets
  obtain ⟨rs, hrows⟩ := exists_rows? (fun a ha => ⟨_, hargs a ha⟩) (size_eq_of_oneSize hp hres hargs htargets hmap hone)
  have hapart := pairwise_apart hdistinct hmap
  have hcount : args.length = (refs.map Ref.target).length := (mapM_eq_some.mp hmapped).length_eq.symm
  have hruns : p.Runs n [] := .outside hn
  have hoperands := returns_lift s (mapM_operandOf hrefs hmapped)
  rcases resolve_cases lib hruns he hparams (forall_mem_nil _) with
    ⟨ws, hws, hlengths⟩ | ⟨e, herror, hrefuses⟩
  · have hmeaning : Effect.outside? lib home regs p.gates none (.apply name params (refs.map Ref.target)) =
        (rs.mapM (expansion? lib home p.gates.reverse name ws)).map List.flatten := by
      have hnone : ∀ xs : List Instruction, xs.map (Instruction.under none) = xs := map_id'
      rw [Effect.outside?, hws, hmapped, Option.map_eq_bind]
      simp only [Except.toOption, Option.bind_eq_bind, Option.bind_some, hrows, hnone]
      rfl
    have hparts : (lift (callParts [] (.call name position params operands guard))).Returns s
      (name, ws, operands) s := by
      rw [callParts, hws]
      rfl
    rw [hmeaning]
    refine hparts.answers_bind.mpr (hoperands.answers_bind.mpr ?_)
    unfold Takes at htakes
    cases hf : findGate? p.gates name with
    | some f =>
      rw [hf] at htakes
      obtain rfl := findGate?_name hf
      rw [Option.map_eq_bind]
      refine (answers_applyComposite hres hvalid hk hf ⟨n, _, _, _, _, hruns, he, hf, hws⟩ (hlengths.trans htakes.1) ?_
        (hcount.trans htakes.2) hargs hapart hrows).map fun _ _ _ happlies => happlies
      rintro rfl
      exact hne (eq_nil_of_length_eq_zero hcount.symm)
    | none =>
      rw [hf] at htakes
      obtain ⟨F, hF, hparamCount, harity⟩ := htakes
      rw [expansion?_of_library hf (List.Subset.refl _), mapM_expansion?_library hF ws (rows?_ne_nil hrows)]
      refine (ends_applyGate (P := IsOf home p.gates) hk hF (hlengths.trans hparamCount)
        (by rw [hcount]; exact harity) (fun a ha => ⟨hargs a ha, fun _ _ => trivial⟩) hapart hrows
        fun cs _ => isOf_of_leaf rfl p.gates).imp (fun v t ht => ?_) fun e t hfailed => ?_
      · obtain ⟨hall, hfilled, hplaced⟩ := ht
        have hflatten : (rs.map fun bits => [Instruction.gate home F ws bits]).flatten = rs.map (.gate home F ws) := by
          rw [← flatMap_def]
          exact flatMap_pure_eq_map _ rs
        rw [hall, if_pos rfl, Option.map_some, hflatten]
        refine ⟨_, rfl, hfilled, hplaced, isBarrier_of_placed hplaced fun x hx => ?_⟩
        obtain ⟨bits, -, rfl⟩ := mem_map.mp hx
        rfl
      · obtain ⟨hall, x, hx, hinfinite, rfl⟩ := hfailed
        rw [hall]
        have he' : n.effect? = some (.apply F.name params (refs.map Ref.target)) := by
          rw [Library.name_of_find? hF]
          exact he
        exact ⟨rfl, (Refusal.parameter hruns he' (Library.find?_name hF) hws hx hinfinite).refuses _ _⟩
  · have hmeaning : Effect.outside? lib home regs p.gates none (.apply name params (refs.map Ref.target)) = none := by
      rw [Effect.outside?, herror]
      rfl
    have hparts : callParts [] (.call name position params operands guard) = .error e := by
      rw [callParts, herror]
      rfl
    rw [hmeaning]
    exact answers_of_error hparts hrefuses

theorem answers_applyMeasure {qubit clbit : Term} {q c : Ref}
    (he : n.effect? = some (.measure q.target c.target)) (hq : qubit.reference = .ok q) (hc : clbit.reference = .ok c) :
    (applyStatement home regs p.gates (.measure qubit clbit position guard)).Answers s
      (Effect.outside? lib home regs p.gates none (.measure q.target c.target)) (Refuses lib p)
      (s.Applies home p.gates) := by
  obtain ⟨hqubit, hclbit⟩ := hres.isInProgram hn he
  have hsizes := hvalid.body n hn _ he
  obtain ⟨a, ha, haoperand, hatarget⟩ := hqubit.exists_operand? hp.names hp.quantum
  obtain ⟨b, hb, hboperand, hbtarget⟩ := hclbit.exists_operand? hp.names hp.classical
  have hnames := hres.names
  rw [map_append, nodup_append] at hnames
  have hsize : ∀ x y, a = .register x → b = .register y → x.size = y.size := by
    rintro x y rfl rfl
    have hx : q.target = (x.name, none) := (Option.some.inj hatarget).symm
    have hy : c.target = (y.name, none) := (Option.some.inj hbtarget).symm
    rw [hx] at hqubit
    rw [hy] at hclbit
    rw [hx, hy] at hsizes
    exact Int.ofNat.inj (hsizes rfl rfl _ _ (hp.quantum.sizeOf? hp.names hnames.1 haoperand.1 hqubit)
      (hp.classical.sizeOf? hp.names hnames.2.1 hboperand.1 hclbit))
  have hkinds : ∀ x ∈ [a, b], ∃ kind, x.IsOperand regs kind := by
    rw [forall_mem_cons, forall_mem_singleton]
    exact ⟨⟨_, haoperand⟩, _, hboperand⟩
  obtain ⟨rs, hrows⟩ : ∃ rs, rows? [a, b] = some rs := by
    refine exists_rows? hkinds fun x y hx hy => ?_
    rw [mem_pair] at hx hy
    rcases hx with hx | hx <;> rcases hy with hy | hy
    · cases hx.trans hy.symm
      rfl
    · exact hsize x y hx.symm hy.symm
    · exact (hsize y x hy.symm hx.symm).symm
    · cases hx.trans hy.symm
      rfl
  have hmeaning : Effect.outside? lib home regs p.gates none (.measure q.target c.target) =
      some (rs.map (.reading home)) := by
    rw [Effect.outside?, ha, hb]
    simp only [Option.bind_eq_bind, Option.bind_some, hrows]
    exact congrArg some (map_id' _)
  have hfirst := returns_lift s (operandOf_eq_ok hq ha)
  have hsecond := returns_lift s (operandOf_eq_ok hc hb)
  rw [hmeaning]
  refine hfirst.ends_bind.mpr (hsecond.ends_bind.mpr ((ends_measure (P := IsOf home p.gates) hk haoperand
    hboperand hrows fun bits _ => isOf_of_leaf rfl p.gates).ends fun v t ht => ?_))
  refine ⟨_, rfl, ht.1, ht.2, isBarrier_of_placed ht.2 fun x hx => ?_⟩
  obtain ⟨bits, -, rfl⟩ := mem_map.mp hx
  rfl

end

/-! ## Guards -/

/-- The guard of a statement names a register that can hold its value. -/
theorem exists_statementCondition (hp : p.Provides regs)
    (hk : s.Site lib regs home (fun _ => True) (.circuit home)) (hguard : ∀ g ∈ guardOf? n, g.IsIn p.cregs) :
    ∃ guard, (guardOf? n).mapM (Guard.condition? regs) = some guard ∧
      (statementCondition home regs n).Returns s guard s ∧ ∀ g ∈ guard, ∀ c : Circuit, c.registers = regs →
        c.checkCondition (.register g.1) (.datum (.int g.2)) = .ok g := by
  cases hn : guardOf? n with
  | none =>
    refine ⟨none, rfl, ?_, fun g hg => by cases hg⟩
    rw [statementCondition, hn]
    rfl
  | some g =>
    obtain ⟨hnonneg, size, hsize, hfits⟩ := hguard g hn
    obtain ⟨r, hr, hname, hkind, rfl⟩ := hp.classical _ _ hsize
    have hfind : (regs.find? fun x => x.name == g.register) = some r := hname ▸ Circuit.find?_register hp.names hr
    have hcheck : ∀ c : Circuit, c.registers = regs →
        c.checkCondition (.register r) (.datum (.int g.value)) = .ok (r, g.value) := by
      rintro c rfl
      exact Circuit.checkCondition_of_mem hp.names hr hkind ((fits_iff hnonneg).mp hfits)
    refine ⟨some (r, g.value), ?_, ?_, ?_⟩
    · show (g.condition? regs).map some = _
      rw [Guard.condition?, hfind]
      rfl
    · obtain ⟨c, hc, hregs, -⟩ := hk.circuit
      rw [statementCondition, hn]
      dsimp only
      rw [hfind]
      refine (returns_circuit hc).bind ?_
      rw [hcheck c hregs]
      rfl
    · intro g' hg'
      cases hg'
      exact hcheck

theorem lowerStatement_eq (h : ∀ position operands, n ≠ .barrier position operands) :
    lowerStatement home regs p.gates n = statementCondition home regs n >>= fun guard =>
      applyStatement home regs p.gates n >>= fun v => guard.elim (pure ()) fun g => conditionApplied v g.1 g.2 := by
  cases n with
  | barrier position operands => exact absurd rfl (h position operands)
  | _ => exact congrArg (statementCondition home regs _ >>= ·) (funext fun guard => by cases guard <;> rfl)

/-- A statement is applied, and what it made is put under its guard. -/
theorem answers_lowerStatement_of_applies (hres : p.Resolved lib) (hp : p.Provides regs)
    (hk : s.Site lib regs home (fun _ => True) (.circuit home)) (hn : n ∈ p.body)
    (he : n.effect? = some e) (hnode : ∀ position operands, n ≠ .barrier position operands)
    (heffect : ∀ targets, e ≠ .barrier targets)
    (happly : (applyStatement home regs p.gates n).Answers s (e.outside? lib home regs p.gates none)
      (Refuses lib p) (s.Applies home p.gates)) :
    (lowerStatement home regs p.gates n).Answers s (n.expansion? lib home regs p.gates) (Refuses lib p)
      fun xs _ t => Builds (IsOf home p.gates) (.circuit home) xs s t := by
  obtain ⟨guard, hguard, hreturns, hcheck⟩ := exists_statementCondition hp hk (hres.body n hn).guarded
  have hmeaning : n.expansion? lib home regs p.gates =
      (e.outside? lib home regs p.gates none).map (List.map (Instruction.under guard)) := by
    rw [← Effect.outside?_guard heffect, Node.expansion?, he, Option.bind_eq_bind, Option.bind_some, hguard]
    rfl
  rw [hmeaning, lowerStatement_eq hnode]
  rw [Option.map_eq_bind]
  refine hreturns.answers_bind.mpr (happly.bind fun xs v t happlies => ?_)
  cases guard with
  | none => exact ⟨xs, congrArg some (map_id' xs), v.ids, happlies.filled, happlies.placed⟩
  | some g =>
    obtain ⟨c, hc, hregs, -⟩ := (hk.filled happlies.filled).circuit
    exact (ends_conditionApplied (fun x hx => ⟨hx.1, hx.guarded g⟩) hc (hcheck g rfl c hregs) happlies.filled
      happlies.placed happlies.noBarrier).ends fun _ u hu => ⟨_, rfl, hu⟩

/-- A barrier whose operands cannot be listed names a register with too many qubits. -/
theorem exists_long_register (hp : p.Provides regs)
    (htargets : ∀ t ∈ targets, t.IsIn p.qregs) (hargs : ∀ a ∈ args, a.IsOperand regs .quantum)
    (hmap : args.map Argument.target? = targets.map some) (h : args.all isListable = false) :
    ∃ name size, (name, none) ∈ targets ∧ p.qregs.lookup name = some size ∧ (Register.lengthLimit : Int) ≤ size := by
  obtain ⟨a, ha, hlong⟩ := all_eq_false.mp h
  cases a with
  | register r =>
    have hmem : some (r.name, none) ∈ targets.map some := hmap ▸ mem_map_of_mem (f := Argument.target?) ha
    obtain ⟨t, ht, heq⟩ := mem_map.mp hmem
    obtain rfl := Option.some.inj heq
    refine ⟨r.name, r.size, ht, hp.quantum.lookup hp.names (hargs _ ha).1 (htargets _ ht), ?_⟩
    exact Int.ofNat_le.mpr (Nat.le_of_not_lt fun hlt => hlong (decide_eq_true hlt))
  | _ => exact absurd rfl hlong

/-- A statement builds what it comes to. -/
theorem answers_lowerStatement (hres : p.Resolved lib) (hvalid : p.IsValid lib) (hp : p.Provides regs)
    (hk : s.Site lib regs home (fun _ => True) (.circuit home)) (hn : n ∈ p.body) :
    (lowerStatement home regs p.gates n).Answers s (n.expansion? lib home regs p.gates) (Refuses lib p)
      fun xs _ t => Builds (IsOf home p.gates) (.circuit home) xs s t := by
  obtain ⟨e, he, -⟩ := (hres.body n hn).effect
  rcases effect?_cases he with ⟨name, params, operands, refs, rfl, hrefs, happlication, hparts⟩ |
    ⟨position, operands, refs, rfl, hrefs, rfl⟩ | ⟨qubit, clbit, position, guard, q, c, rfl, hq, hc, rfl⟩
  · refine answers_lowerStatement_of_applies hres hp hk hn he ?_ (fun _ h => by cases h) ?_
    · rcases happlication with ⟨_, _, _, _, _, rfl⟩ | ⟨_, _, _, _, _, rfl⟩ <;> exact fun _ _ h => by cases h
    · rw [applyStatement_eq happlication (hparts [])]
      exact answers_applyCall hres hvalid hp hk hn he hrefs
  · obtain ⟨hne, htargets⟩ := hres.isInProgram hn he
    obtain ⟨args, hmapped, hargs, hmap⟩ := Target.exists_mapM_operand? hp.names hp.quantum htargets
    have hdistinct := distinct_flatMap_bits (pairwise_apart (hvalid.body _ hn _ he) hmap)
    have hmeaning : Node.expansion? lib home regs p.gates (.barrier position operands) =
        if args.all isListable then some [.fence home (args.flatMap Argument.bits)] else none := by
      rw [Node.expansion?, he]
      simp only [Option.bind_eq_bind, Option.bind_some, guardOf?, Option.mapM_none, Option.pure_def, Effect.outside?,
        hmapped]
    have hoperands := returns_lift s (mapM_operandOf hrefs hmapped)
    have hguard : (statementCondition home regs (.barrier position operands)).Returns s none s := rfl
    have hne' : args ≠ [] := by
      rintro rfl
      exact hne (eq_nil_of_length_eq_zero (mapM_eq_some.mp hmapped).length_eq)
    rw [hmeaning]
    refine hguard.ends_bind.mpr (hoperands.ends_bind.mpr (ends_bind.mpr ((ends_barrier
      (P := IsOf home p.gates) hk hne' (fun a ha => ⟨hargs a ha, fun _ _ => trivial⟩)
      (isOf_of_leaf rfl p.gates)).imp (fun i t ht => ⟨_, if_pos ht.1, [i], ht.2.2⟩) fun fault t ht => ?_)))
    obtain ⟨hlong, rfl⟩ := ht.resolve_right fun h => Bool.false_ne_true (h.1.symm.trans hdistinct)
    obtain ⟨name, size, hmem, hsize, hle⟩ := exists_long_register hp htargets hargs hmap hlong
    exact ⟨by rw [hlong]; rfl, .inr ⟨rfl, _, hn, _, name, size, he, hmem, hsize, hle⟩⟩
  · exact answers_lowerStatement_of_applies hres hp hk hn he (fun _ _ h => by cases h) (fun _ h => by cases h)
      (answers_applyMeasure hres hvalid hp hk hn he hq hc)

end Action

end QasmCircuit
