import QasmCircuit.Proofs.Circuit.Written

/-!
# Instructions written as statements

An instruction without a body becomes a statement of a program on the same registers. The statement can be read back
(`Node.Stands`), and it comes to one instruction: the same operation on the same bits under the same condition, with the
controls among the operands (`Instruction.ReadsAs`).
-/

namespace QasmCircuit

open Outcome List Bit
open Register (sorted AreWritable)
open Decimal (plain)

/-! ## Instructions without a body -/

/-- A library whose gates can be called: their names are no keywords, and they have operands. -/
structure Library.IsCallable (lib : Library) : Prop where
  names : ∀ f, lib.find? f.name = some f → Source.IsName Keyword.statements f.name
  operands : ∀ f, lib.find? f.name = some f → 0 < f.arity

namespace Instruction

/-- The statement of an instruction without a body. -/
def statement? (lib : Library) (x : Instruction) : Option Node :=
  match x.operation, x.args with
  | .atomic _, _ => some (callNode (x.writtenAs lib) x)
  | .barrier, args => some (.barrier .origin (args.map (bitRef .quantum)))
  | .measure, [q, c] => some (.measure (bitRef .quantum q) (bitRef .classical c) .origin (guardOf x.condition))
  | _, _ => none

/-- What the statement of an instruction comes to, its condition apart: the same operation on the bits of other
registers, with the controls among them. -/
def restated (lib : Library) (home : CircuitId) (regs : List Register) (x : Instruction) : Instruction :=
  match x.operation with
  | .atomic f =>
    .gate home ((lib.controlledBy x.controlBits.length f).getD f) (x.params.map plain) (x.allBits.map (Bit.moved regs))
  | .barrier => .fence home (x.args.map (Bit.moved regs))
  | .measure => .reading home (x.args.map (Bit.moved regs))
  | .composite _ _ _ => x

/-- An instruction without a body that acts on some registers, and has a form with its controls. -/
structure IsLine (lib : Library) (regs : List Register) (x : Instruction) : Prop where
  leaf : x.isComposite = false
  proper : x.IsProper lib
  fits : x.Fits regs
  form : x.HasForm lib

/-- The operation of an instruction together with its controls. -/
def controlled? (lib : Library) (x : Instruction) : Option Operation :=
  match x.operation with
  | .atomic f => (lib.controlledBy x.controlBits.length f).map .atomic
  | op => some op

/-- An instruction is read as another one: the gate of the library that has the controls among its qubits, on the same
bits, with the same numbers but for the signs of zeros, and under the same condition. -/
structure ReadsAs (lib : Library) (x y : Instruction) : Prop where
  operation : x.controlled? lib = some y.operation
  params : ∀ f, x.operation = .atomic f → y.params = x.params.map plain
  bits : y.args.map Bit.key = x.allBits.map Bit.key
  controls : y.controls = []
  condition : y.condition = x.condition

end Instruction

/-- A statement of a program on some registers, with some declarations, stands for some instructions: it can be read
back, and it comes to the instructions again. -/
structure Node.Stands (lib : Library) (regs : List Register) (gates : List GateDef) (n : Node)
    (xs : List Instruction) : Prop where
  numeric : n.IsNumeric
  restates : ∀ p : Program, p.HasRegisters regs → p.gates = gates → ∀ line, n.statementLine = .ok line →
    ∃ s : Source.Statement, s.Restates lib p n
  valid : ∀ p : Program, p.gates = gates.map GateDef.canonical → ∀ e ∈ n.canonical.effect?, e.IsValid lib p
  guards : ∀ x ∈ xs, x.isBarrier = false → guardOf x.condition = Program.guardOf? n
  meaning : ∀ home, n.canonical.expansion? lib home (sorted regs) (gates.map GateDef.canonical) =
    some (xs.map fun x => (x.restated lib home (sorted regs)).under x.condition)

namespace Instruction

variable {lib : Library} {regs : List Register} {gates : List GateDef} {x : Instruction} {f g : Family}
  {y : Instruction} {params : List Float}

theorem showing_bind (text : String) : (Text.showing x.isShort text >>= fun t => pure (t ++ ";")) =
    Text.showing x.isShort (text ++ ";") := by
  cases x.isShort <;> rfl

theorem allBits_of_controls (h : x.controls = []) : x.allBits = x.args := by
  rw [allBits, controlBits, h]
  rfl

/-- The bits of the controls are qubits of the registers. -/
theorem Fits.isIn_controlBits (h : x.Fits regs) : ∀ b ∈ x.controlBits, b.IsIn regs .quantum := by
  intro b hb
  obtain ⟨r, hr, hb⟩ := mem_flatMap.mp hb
  obtain ⟨hmem, hkind⟩ := h.controls r hr
  obtain ⟨k, hk, rfl⟩ := mem_pmap.mp hb
  exact ⟨hkind, r, hmem, rfl, hkind, mem_range.mp hk⟩

/-- All bits of a gate are different qubits of the registers. -/
theorem Fits.allBits (h : x.Fits regs) (hargs : x.splitArgs = (x.args, [])) :
    (∀ b ∈ x.allBits, b.IsIn regs .quantum) ∧ Bit.distinct x.allBits := by
  have hqubits := h.qubits
  have hdistinct := h.distinct
  rw [hargs] at hqubits hdistinct
  exact ⟨fun b hb => (mem_append.mp hb).elim (h.isIn_controlBits b) (hqubits b), hdistinct⟩

/-- A gate calls its family, or its declaration, on all its bits. -/
theorem Fits.calls (h : x.Fits regs) (hmeasure : x.isMeasure = false) (hne : x.allBits ≠ []) : x.Calls regs := by
  obtain ⟨hbits, hdistinct⟩ := h.allBits (by rw [splitArgs_eq, hmeasure]; rfl)
  exact ⟨hbits, hne, hdistinct, h.condition⟩

theorem IsLine.exists_family (h : x.IsLine lib regs) (hlib : lib.IsRegular) (hop : x.operation = .atomic f) :
    ∃ g, lib.controlledBy x.controlBits.length f = some g ∧
      lib.find? g.name = some g ∧ x.params.length = g.params.length ∧ (x.allBits.length : Int) = g.arity ∧
      ∀ p ∈ x.params, p.isFinite := by
  have hproper := h.proper
  rw [IsProper, hop] at hproper
  obtain ⟨hf, hparams, hfinite, harity, -⟩ := hproper
  obtain ⟨g, hg⟩ := Option.isSome_iff_exists.mp (h.form f hop)
  obtain ⟨hfind, harity', hparams'⟩ := hlib.controlledBy hf hg
  refine ⟨g, hg, hfind, hparams.trans hparams'.symm, ?_, hfinite⟩
  rw [harity', ← harity, allBits, length_append]
  push_cast
  omega

theorem restated_of_controlledBy (hop : x.operation = .atomic f) (hg : lib.controlledBy x.controlBits.length f = some g)
    (home : CircuitId) (others : List Register) : x.restated lib home others =
      .gate home g (x.params.map plain) (x.allBits.map (Bit.moved others)) := by
  rw [restated, hop]
  dsimp only
  rw [hg, Option.getD_some]

/-- The application of a gate of the library comes to that gate. -/
theorem expansion?_of_family (hg : lib.find? g.name = some g)
    (hfinite : ∀ p ∈ params, p.isFinite) (home : CircuitId) (hgates : ∀ d ∈ gates, lib.contains d.name = false)
    (bits : List Bit) : Program.expansion? lib home gates.reverse g.name (params.map plain) bits =
      some [.gate home g (params.map plain) bits] := by
  have hcontains : lib.contains g.name := Option.isSome_iff_exists.mpr ⟨g, hg⟩
  have hnone : findGate? gates g.name = none := Program.findGate?_eq_none fun d hd hname => by
    have hfalse := hgates d hd
    rw [hname, hcontains] at hfalse
    cases hfalse
  have hall : (params.map plain).all Float.isFinite := by
    rw [all_map, all_eq_true]
    intro p hp
    rw [Function.comp_apply, Decimal.isFinite_plain]
    exact hfinite p hp
  rw [Action.expansion?_of_library hnone (List.Subset.refl _), Program.expansion?, hg]
  exact if_pos hall

theorem under_of_isBarrier (h : y.isBarrier) (c : Option Condition) : y.under c = y := by
  cases c with
  | none => rfl
  | some g => exact if_pos h

theorem under_of_not (h : y.isBarrier = false) (hc : y.condition = none) (c : Option Condition) :
    y.under c = { y with condition := c } := by
  cases c with
  | none =>
    obtain ⟨operation, params, args, circuit, condition, controls⟩ := y
    cases hc
    rfl
  | some g => exact guarded_of_not g h

/-- A barrier is put under no condition. -/
theorem under_restated_of_isBarrier {z : Instruction} (h : z.isBarrier) (home : CircuitId)
    (others : List Register) (c : Option Condition) :
    (z.restated lib home others).under c = z.restated lib home others := by
  refine under_of_isBarrier ?_ c
  unfold isBarrier at h
  split at h
  · next hop =>
    rw [restated, hop]
    rfl
  · cases h

/-- A name stands for an instruction: a call of it on the bits of the instruction comes to some instructions, all of
them under the condition of the instruction, barriers apart. -/
structure CalledAs (lib : Library) (regs : List Register) (gates : List GateDef) (x : Instruction) (name : String)
    (zs : List Instruction) : Prop where
  calls : x.Calls regs
  named : Source.IsName Keyword.statements name
  known : IsKnown lib gates name
  takes : Takes lib (gates.map GateDef.canonical) name x.params.length x.allBits.length
  conditions : ∀ z ∈ zs, z.isBarrier = false → z.condition = x.condition
  meaning : ∀ home, Program.expansion? lib home (gates.map GateDef.canonical).reverse name (x.params.map plain)
    (x.allBits.map (Bit.moved (sorted regs))) = some (zs.map (restated lib home (sorted regs)))

theorem isFinite_of_statementLine {name line : String} {position : Position}
    {operands : List Term} {guard : Option Guard}
    (h : (Node.call name position (paramTerms params) operands guard).statementLine = .ok line) :
    ∀ p ∈ params, p.isFinite := by
  obtain ⟨text, htext, -⟩ := bind_eq_ok.mp h
  obtain ⟨texts, htexts⟩ := Source.Operation.exists_texts htext
  rw [paramTerms, mapM_eq_ok, forall₂_map_left_iff] at htexts
  intro p hp
  obtain ⟨t, -, ht⟩ := exists_of_forall₂ htexts.flip p hp
  exact Term.isFinite_of_realText ht

/-- The call of a name stands for the instructions that it comes to. -/
theorem CalledAs.stands {name : String} {zs : List Instruction} (h : x.CalledAs lib regs gates name zs)
    (hregs : AreWritable regs) : (callNode name x).Stands lib regs gates zs := by
  refine ⟨isNumeric_paramTerms _, fun p hp hgates line hline => ?_, fun p hp e he => ?_, fun z hz hbarrier => ?_,
    fun home => ?_⟩
  · exact h.calls.exists_restates hregs hp (isFinite_of_statementLine hline)
      (h.named.mono (Guard.keywords_subset _)) (hgates ▸ h.known) (Program.isShort_of_statementLine hline)
  · rw [effect?_callNode] at he
    obtain rfl := Option.some.inj he
    refine ⟨?_, distinct_target h.calls.distinct, oneSize_target _ _⟩
    rw [paramTerms, length_map, length_map, length_map, hp]
    exact h.takes
  · rw [h.conditions z hz hbarrier]
    rfl
  · rw [h.calls.expansion?_callNode hregs (h.meaning home), map_map]
    refine congrArg some (map_congr_left fun z hz => ?_)
    rw [Function.comp_apply]
    cases hbarrier : z.isBarrier with
    | true => rw [under_restated_of_isBarrier hbarrier, under_restated_of_isBarrier hbarrier]
    | false => rw [h.conditions z hz hbarrier]

section

variable (h : x.IsLine lib regs)

include h

/-- A gate of the library is called by its name. -/
theorem IsLine.calledAs (hlib : lib.IsRegular) (hcallable : lib.IsCallable)
    (hgates : ∀ g ∈ gates, lib.contains g.name = false) (hop : x.operation = .atomic f) :
    x.CalledAs lib regs gates (x.writtenAs lib) [x] := by
  obtain ⟨g, hg, hfind, hparams, harity, hfinite⟩ := h.exists_family hlib hop
  have hmeasure : x.isMeasure = false := by rw [isMeasure, hop]
  have hcontains : lib.contains g.name := Option.isSome_iff_exists.mpr ⟨g, hfind⟩
  have hne : x.allBits ≠ [] := by
    intro hnil
    have hpos := hcallable.operands g hfind
    rw [← harity, hnil] at hpos
    exact absurd hpos (by decide)
  have hown : ∀ d ∈ gates.map GateDef.canonical, lib.contains d.name = false := by
    intro d hd
    obtain ⟨d', hd', rfl⟩ := mem_map.mp hd
    exact hgates d' hd'
  have hnone : findGate? (gates.map GateDef.canonical) g.name = none := Program.findGate?_eq_none fun d hd hname => by
    have hfalse := hown d hd
    rw [hname, hcontains] at hfalse
    cases hfalse
  rw [writtenAs_of_controlledBy hop hg]
  refine ⟨h.fits.calls hmeasure hne, hcallable.names g hfind, .inl hcontains, ?_,
    forall_mem_singleton.mpr fun _ => rfl, fun home => ?_⟩
  · unfold Takes
    rw [hnone]
    exact ⟨g, hfind, hparams, harity⟩
  · rw [expansion?_of_family hfind hfinite home hown, map_singleton, restated_of_controlledBy hop hg]

/-- The call of a gate of the library stands for the gate. -/
theorem IsLine.stands_atomic (hlib : lib.IsRegular) (hcallable : lib.IsCallable)
    (hregs : AreWritable regs) (hgates : ∀ g ∈ gates, lib.contains g.name = false)
    (hop : x.operation = .atomic f) : (callNode (x.writtenAs lib) x).Stands lib regs gates [x] :=
  (h.calledAs hlib hcallable hgates hop).stands hregs

/-- A barrier acts on its arguments, and it is under no condition. -/
theorem IsLine.calls_of_barrier (hop : x.operation = .barrier) :
    x.Calls regs ∧ x.allBits = x.args ∧ x.condition = none := by
  have hproper := h.proper
  rw [IsProper, hop] at hproper
  obtain ⟨hne, hcontrols, hcondition, -⟩ := hproper
  have hbits := allBits_of_controls hcontrols
  refine ⟨h.fits.calls ?_ (hbits ▸ hne), hbits, hcondition⟩
  rw [isMeasure, hop]

theorem IsLine.stands_barrier (hregs : AreWritable regs) (gates : List GateDef) (hop : x.operation = .barrier) :
    (Node.barrier .origin (x.args.map (bitRef .quantum))).Stands lib regs gates [x] := by
  obtain ⟨hcalls, hargs, hcondition⟩ := h.calls_of_barrier hop
  rw [← hargs]
  have heffect : (Node.barrier .origin (x.allBits.map (bitRef .quantum))).canonical.effect? =
      some (.barrier (x.allBits.map Bit.target)) := by
    rw [Node.canonical, Node.change, map_canonical_bitRef, Node.effect?, mapM_target?_bitRef (by decide)]
    rfl
  refine ⟨trivial, fun p hp _ _ _ => ?_, fun p _ e he => ?_, forall_mem_singleton.mpr fun hbarrier => ?_,
    fun home => ?_⟩
  · rw [map_bitRef]
    refine ⟨_, Source.Statement.restates_barrier ?_ fun r hr => ?_⟩
    · rw [Ne, map_eq_nil_iff]
      exact hcalls.some_qubit
    · obtain ⟨b, hb, rfl⟩ := mem_map.mp hr
      exact b.isOperand_toRef hregs hp (hcalls.qubits b hb)
  · rw [heffect] at he
    obtain rfl := Option.some.inj he
    exact distinct_target hcalls.distinct
  · rw [isBarrier, hop] at hbarrier
    cases hbarrier
  · have hbits := mapM_operand?_target hregs.nodup_sorted fun b hb =>
      (hcalls.qubits b hb).mono hregs.perm_sorted.symm.subset
    refine Option.bind_eq_some_iff.mpr ⟨_, heffect, Option.bind_eq_some_iff.mpr ⟨none, rfl,
      Option.bind_eq_some_iff.mpr ⟨_, hbits, (if_pos (Argument.isListable_bits _)).trans ?_⟩⟩⟩
    rw [flatMap_bits_bit, map_singleton, restated, hop, hcondition, hargs]
    rfl

/-- A measurement of a bit stands for the measurement. -/
theorem IsLine.stands_measure (hregs : AreWritable regs)
    (gates : List GateDef) (hop : x.operation = .measure) {q c : Bit} (hargs : x.args = [q, c]) :
    (Node.measure (bitRef .quantum q) (bitRef .classical c) .origin (guardOf x.condition)).Stands
    lib regs gates [x] := by
  have hsplit : x.splitArgs = ([q], [c]) := by
    rw [splitArgs, hop, hargs]
    rfl
  have hq : q.IsIn regs .quantum := h.fits.qubits q (hsplit ▸ mem_singleton_self q)
  have hc : c.IsIn regs .classical := h.fits.clbits c (hsplit ▸ mem_singleton_self c)
  have heffect : (Node.measure (bitRef .quantum q) (bitRef .classical c) .origin
      (guardOf x.condition)).canonical.effect? = some (.measure q.target c.target) := rfl
  refine ⟨trivial, fun p hp _ line hline => ?_, fun p _ e he => ?_, forall_mem_singleton.mpr fun _ => rfl,
    fun home => ?_⟩
  · have hshort := Program.isShort_of_statementLine hline
    have hunder : Node.measure (bitRef .quantum q) (bitRef .classical c) .origin (guardOf x.condition) =
        (Node.measure (.ref (q.toRef .quantum)) (.ref (c.toRef .classical)) .origin none).under
          (guardOf x.condition) := by
      unfold Node.under
      cases guardOf x.condition <;> rfl
    rw [hunder]
    exact Condition.Fits.exists_restates h.fits.condition hregs hp
      (Source.Action.restates_measure (q.isOperand_toRef hregs hp hq) (c.isClassical_toRef hregs hp hc)) hshort
  · rw [heffect] at he
    obtain rfl := Option.some.inj he
    exact fun hnone => by cases hnone
  · have hmove : ∀ {b : Bit} {kind : RegisterKind}, b.IsIn regs kind →
        b.target.operand? (sorted regs) = some (.bit (b.moved (sorted regs))) := fun hb =>
      operand?_target hregs.nodup_sorted (hb.mono hregs.perm_sorted.symm.subset)
    have houtside : Effect.outside? lib home (sorted regs) (gates.map GateDef.canonical) x.condition
        (.measure q.target c.target) = some [(reading home [q.moved (sorted regs),
          c.moved (sorted regs)]).under x.condition] :=
      Option.bind_eq_some_iff.mpr ⟨_, hmove hq, Option.bind_eq_some_iff.mpr ⟨_, hmove hc, Option.bind_eq_some_iff.mpr
        ⟨_, rows?_bits [q.moved (sorted regs), c.moved (sorted regs)], rfl⟩⟩⟩
    rw [Node.expansion?, heffect, map_singleton, restated, hop, hargs]
    exact Option.bind_eq_some_iff.mpr ⟨_, rfl, Option.bind_eq_some_iff.mpr
      ⟨x.condition, Condition.Fits.mapM_guardOf h.fits.condition hregs, houtside⟩⟩

/-- Every instruction without a body has a statement that stands for it. -/
theorem IsLine.exists_stands (hlib : lib.IsRegular) (hcallable : lib.IsCallable)
    (hregs : AreWritable regs) (hgates : ∀ g ∈ gates, lib.contains g.name = false) :
    ∃ n, x.statement? lib = some n ∧ n.Stands lib regs gates [x] := by
  cases hop : x.operation with
  | atomic f =>
    refine ⟨_, ?_, h.stands_atomic hlib hcallable hregs hgates hop⟩
    rw [statement?, hop]
  | barrier =>
    refine ⟨_, ?_, h.stands_barrier hregs gates hop⟩
    rw [statement?, hop]
  | measure =>
    have hproper := h.proper
    rw [IsProper, hop] at hproper
    obtain ⟨q, c, hargs⟩ := length_eq_two.mp hproper.1
    refine ⟨_, ?_, h.stands_measure hregs gates hop hargs⟩
    rw [statement?, hop, hargs]
  | composite name body inverted =>
    have hleaf := h.leaf
    exact absurd_leaf hleaf hop

/-- What the statement of an instruction comes to is what the instruction is read as. -/
theorem IsLine.readsAs (home : CircuitId) (others : List Register) :
    x.ReadsAs lib ((x.restated lib home others).under x.condition) := by
  have hproper := h.proper
  cases hop : x.operation with
  | atomic f =>
    obtain ⟨g, hg⟩ := Option.isSome_iff_exists.mp (h.form f hop)
    rw [restated_of_controlledBy hop hg, under_of_not rfl rfl]
    refine ⟨?_, fun _ _ => rfl, map_key_moved _ _, rfl, rfl⟩
    rw [controlled?, hop]
    dsimp only
    rw [hg]
    rfl
  | barrier =>
    rw [IsProper, hop] at hproper
    have hrestated : x.restated lib home others = .fence home (x.args.map (Bit.moved others)) := by rw [restated, hop]
    rw [hrestated, under_of_isBarrier rfl]
    refine ⟨?_, fun f hf => ?_, ?_, rfl, hproper.2.2.1.symm⟩
    · rw [controlled?, hop]
      rfl
    · rw [hop] at hf
      cases hf
    · rw [allBits_of_controls hproper.2.1]
      exact map_key_moved _ _
  | measure =>
    rw [IsProper, hop] at hproper
    have hrestated : x.restated lib home others = .reading home (x.args.map (Bit.moved others)) := by rw [restated, hop]
    rw [hrestated, under_of_not rfl rfl]
    refine ⟨?_, fun f hf => ?_, ?_, rfl, rfl⟩
    · rw [controlled?, hop]
      rfl
    · rw [hop] at hf
      cases hf
    · rw [allBits_of_controls hproper.2.1]
      exact map_key_moved _ _
  | composite name body inverted =>
    have hleaf := h.leaf
    exact absurd_leaf hleaf hop

end

/-- What a statement that has a text stands for can be written. -/
theorem IsLine.isShort {n : Node} {xs : List Instruction} (h : x.IsLine lib regs) (hn : n.Stands lib regs gates xs)
    (hx : x ∈ xs) {line : String} (hline : n.statementLine = .ok line) : x.isShort := by
  cases hbarrier : x.isBarrier with
  | true => exact isShort_of_none (h.proper.condition_of_isBarrier hbarrier)
  | false =>
    have hguard := Program.isShort_of_statementLine hline
    rw [← hn.guards x hx hbarrier] at hguard
    unfold Instruction.isShort
    cases hc : x.condition with
    | none => rfl
    | some c => exact hguard ⟨c.1.name, c.2⟩ (by rw [hc]; rfl)

theorem ReadsAs.isShort_eq (h : x.ReadsAs lib y) : y.isShort = x.isShort := by
  rw [Instruction.isShort, h.condition, Instruction.isShort]

/-- What an instruction is read as has the same line. -/
theorem ReadsAs.line_eq (h : x.ReadsAs lib y) (hx : x.IsLine lib regs) : y.line lib = x.line lib := by
  have hproper := hx.proper
  have hoperation := h.operation
  have hbits := map_text_of_key h.bits
  cases hop : x.operation with
  | atomic f =>
    obtain ⟨g, hg⟩ := Option.isSome_iff_exists.mp (hx.form f hop)
    have hy : y.operation = .atomic g := by
      rw [controlled?, hop] at hoperation
      dsimp only at hoperation
      rw [hg] at hoperation
      exact (Option.some.inj hoperation).symm
    have hnone : lib.controlledBy y.controlBits.length g = some g := by
      rw [controlBits, h.controls]
      rfl
    have hparams : y.paramTexts = x.paramTexts := by
      rw [paramTexts, paramTexts, h.params f hop, map_map]
      exact map_congr_left fun p _ => by rw [Function.comp_apply, Decimal.plain_plain]
    rw [line, line, hop, hy]
    dsimp only
    rw [writtenAs_of_controlledBy hy hnone, writtenAs_of_controlledBy hop hg, hparams, allBits_of_controls h.controls,
      hbits, guardedText, guardedText, h.condition]
  | barrier =>
    rw [IsProper, hop] at hproper
    rw [controlled?, hop] at hoperation
    rw [allBits_of_controls hproper.2.1] at hbits
    rw [line, line, hop, ← Option.some.inj hoperation]
    dsimp only
    rw [hbits]
  | measure =>
    rw [IsProper, hop] at hproper
    rw [controlled?, hop] at hoperation
    rw [allBits_of_controls hproper.2.1] at hbits
    rw [line, line, hop, ← Option.some.inj hoperation]
    dsimp only
    rw [hbits, guardedText, guardedText, h.condition]
  | composite name body inverted =>
    have hleaf := hx.leaf
    exact absurd_leaf hleaf hop

end Instruction

end QasmCircuit
