import QasmCircuit.Proofs.Circuit.DeclareBack

/-!
# Gates that can be called

The name of a declaration comes from the name of a gate, which may be any identifier, with letters for its controls
and a mark for its inverse. Nothing else than such a name can keep the program of a circuit from being read back: all
that is declared has a new name, and its body calls gates of the library and gates that are declared before it on its
own arguments (`GateDef.IsDeclared`).

> `Store.Reachable.parse_toProgram_iff`: the program of a circuit is read back if and only if it calls its gates by
  name.
-/

namespace QasmCircuit

open Outcome Source
open Program (GateScope guardOf?)

variable {lib : Library} {c : CircuitId} {table : List GateDef} {line text : String} {p : Program}

/-! ## Statements -/

/-- A statement on some arguments of a gate: a call of a known gate, or a barrier. -/
inductive Node.IsOn (lib : Library) (gates : List GateDef) (args : List String) : Node → Prop
  | call {name : String} {params : List Float} {names : List String} (hknown : IsKnown lib gates name)
      (hne : names ≠ []) (hnames : names ⊆ args) :
      IsOn lib gates args (.call name .origin (paramTerms params) ((names.map formalRef).map .ref) none)
  | barrier {names : List String} (hne : names ≠ []) (hnames : names ⊆ args) :
      IsOn lib gates args (.barrier .origin ((names.map formalRef).map .ref))

/-- A statement on some registers: that of an instruction without a body, or a call of a known gate. -/
inductive Node.IsAmong (lib : Library) (regs : List Register) (gates : List GateDef) : Node → Prop
  | line {x : Instruction} {n : Node} (h : x.IsLine lib regs) (hn : x.statement? lib = some n) :
      IsAmong lib regs gates n
  | call {x : Instruction} {name : String} (h : x.Calls regs) (hknown : IsKnown lib gates name) :
      IsAmong lib regs gates (callNode name x)

section

variable {gates : List GateDef} {n : Node} {keywords : List Keyword}

/-- In a body, only the name of a call can keep a statement from being written. -/
theorem Node.IsOn.exists_restates {g : GateScope} (h : n.IsOn lib gates g.args)
    (hwords : ∀ a ∈ g.args, Lexeme.isWord a) (hname : n.callsByName keywords)
    (hline : n.statementLine = .ok line) :
    ∃ s : BodyStatement, s.Restates lib { gates := gates } g keywords n := by
  cases h with
  | call hknown hne hnames =>
    obtain ⟨es, hes⟩ := exists_restates_paramTerms (some g) (Instruction.isFinite_of_statementLine hline)
    exact ⟨_, (@Operation.restates_call (some g) _ es lib { gates := gates } keywords _ .origin _
      (of_decide_eq_true hname) hknown hes (mt List.map_eq_nil_iff.mp hne)
      (isOperand_formalRef hwords hnames)).bodyStatement⟩
  | barrier hne hnames =>
    exact ⟨_, BodyStatement.restates_barrier (mt List.map_eq_nil_iff.mp hne) (isOperand_formalRef hwords hnames)⟩

theorem exists_bodyRestates_of_isOn {g : GateScope} (hwords : ∀ a ∈ g.args, Lexeme.isWord a) {ns : List Node}
    (h : ∀ n ∈ ns, n.IsOn lib gates g.args)
    (hnames : Node.bodyCallsByName keywords ns) {lines : String} (hlines : Node.bodyLines ns = .ok lines) :
    ∃ body, BodyRestates lib gates g keywords body ns := by
  induction ns generalizing keywords lines with
  | nil => exact ⟨[], .nil⟩
  | cons n ns ih =>
    rw [List.forall_mem_cons] at h
    obtain ⟨hname, hnames⟩ := Bool.and_eq_true_iff.mp hnames
    obtain ⟨⟨line, hline⟩, more, hmore⟩ := exists_of_bodyLines_cons hlines
    obtain ⟨s, hs⟩ := h.1.exists_restates hwords hname hline
    obtain ⟨body, hbody⟩ := ih h.2 hnames hmore
    exact ⟨s :: body, .cons hs hbody⟩

/-- Among the statements of a program, too, only the name of a call can keep one from being written. -/
theorem Node.IsAmong.exists_restates {regs : List Register} (h : n.IsAmong lib regs gates)
    (hlib : lib.IsRegular) (hcallable : lib.IsCallable) (hregs : Register.AreWritable regs)
    (hown : ∀ g ∈ gates, lib.contains g.name = false) (hp : p.HasRegisters regs)
    (hgates : p.gates = gates) (hname : n.callsByName (Guard.keywords (guardOf? n)))
    (hline : n.statementLine = .ok line) : ∃ s : Statement, s.Restates lib p n := by
  cases h with
  | line h hn =>
    obtain ⟨m, hm, hstands⟩ := h.exists_stands hlib hcallable hregs hown
    cases hn.symm.trans hm
    exact hstands.restates p hp hgates line hline
  | call h hknown =>
    rw [← hgates] at hknown
    exact h.exists_restates hregs hp (Instruction.isFinite_of_statementLine hline) (of_decide_eq_true hname) hknown
      (Program.isShort_of_statementLine hline)

end

/-! ## Tables -/

/-- A declaration that only its name, or the name of a call in it, can keep from being read. -/
structure GateDef.IsDeclared (lib : Library) (before : List GateDef) (g : GateDef) : Prop where
  named : Lexeme.isWord g.name → g.IsNamed
  fresh : Program.IsFresh lib before g.name
  body : ∀ n ∈ g.body, n.IsOn lib before g.args

namespace GateDef

variable {before : List GateDef} {g : GateDef}

theorem IsDeclared.exists_restates (h : g.IsDeclared lib before) (hname : g.callsByName)
    (htext : g.render = .ok text) : ∃ d, g.Restates lib before d := by
  obtain ⟨hword, hbody⟩ := Bool.and_eq_true_iff.mp hname
  have hnamed := h.named hword
  obtain ⟨lines, hlines⟩ := bodyLines_of_render htext
  obtain ⟨body, hrestates⟩ := exists_bodyRestates_of_isOn (g := g.scope) hnamed.args h.body hbody hlines
  exact ⟨_, restates hnamed h.fresh hrestates⟩

theorem own_of_each (h : Each (IsDeclared lib) table) :
    ∀ g ∈ table, lib.contains g.name = false := by
  intro g hg
  obtain ⟨before, after, hsplit⟩ := List.append_of_mem hg
  exact (h before g after hsplit).fresh.2.1

end GateDef

/-! ## Names -/

namespace Program

theorem startsLower_of_isIdentifier {s : String} (h : isIdentifier s) : startsLower s := by
  unfold isIdentifier at h
  unfold startsLower
  cases hchars : s.toList with
  | nil =>
    rw [hchars] at h
    cases h
  | cons c cs =>
    rw [hchars] at h
    exact (Bool.and_eq_true_iff.mp h).1

end Program

open Program (startsLower startsLower_append)

/-- All names that are tried for a gate begin with a lower-case letter. -/
theorem startsLower_candidateName {name : String} (h : isIdentifier name) (x : Instruction) (inverted : Bool)
    (k : Nat) : startsLower (candidateName (definitionName x name inverted) k) := by
  have hcontrols : startsLower (String.ofList (List.replicate x.controlBits.length 'c') ++ name) := by
    cases x.controlBits.length with
    | zero =>
      rw [List.replicate_zero, String.ofList_nil, String.empty_append]
      exact Program.startsLower_of_isIdentifier h
    | succ n =>
      refine startsLower_append ?_ name
      rw [startsLower, String.toList_ofList]
      rfl
  unfold candidateName
  split
  · exact startsLower_append hcontrols _
  · exact startsLower_append (startsLower_append (startsLower_append hcontrols _) _) _

/-! ## Steps -/

namespace Action

variable {lost loose : Set InstructionId} {s : Store} {d : Circuit} {i : InstructionId} {x gate : Instruction}

section

variable (hlib : lib.IsAligned) (hcallable : lib.IsCallable) (hs : s.Sound lib lost loose)
  (hd : s.circuit? c = some d)
include hlib hcallable hs hd

/-- A statement in a body is a call or a barrier on the arguments of the gate. -/
theorem isOn_of_isStated (hi : s.Within c i) (hx : s.instruction? i = some x)
    (hown : ∀ g ∈ table, lib.contains g.name = false) {called : String → Prop}
    (hcalled : ∀ name, called name → name ∈ table.map GateDef.name) {m : Node} (h : x.IsStated lib called gate m) :
    m.IsOn lib table ((formalArgs gate).map (·.2)) := by
  obtain ⟨-, operands, hoperands, hm⟩ := h
  have hsubset := FormalArgs.subset_of_forall₂ hoperands
  have hne : x.allBits ≠ [] → operands ≠ [] := by
    rintro hne rfl
    exact hne (List.forall₂_nil_right_iff.mp hoperands)
  have hline := Store.isLine_of_within hlib hs hd hi hx
  cases hop : x.operation with
  | barrier =>
    rw [hop] at hm
    have hcalls := ((hline (by rw [Instruction.isComposite, hop])).calls_of_barrier hop).1
    exact hm ▸ .barrier (hne hcalls.some_qubit) hsubset
  | measure =>
    rw [hop] at hm
    exact hm.elim
  | atomic f =>
    rw [hop] at hm
    have hcalls := (hline (by rw [Instruction.isComposite, hop])).calledAs hs.regular hcallable hown hop
    exact hm ▸ .call hcalls.known (hne hcalls.calls.some_qubit) hsubset
  | composite base body inverted =>
    rw [hop] at hm
    obtain ⟨name, hname, rfl⟩ := hm
    exact .call (.inr (Program.isSome_findGate?.mpr (hcalled name hname)))
      (hne (hs.calls_of_within hd hi hx hop).some_qubit)
      hsubset

/-- What is declared is read but for its name and the names of its calls. -/
theorem yields_isDeclared : s.Yields c lib (GateDef.IsDeclared lib) := by
  rintro n i g table hi htable ⟨x, base, body, inverted, statements, k, hx, hop, rfl, hbody⟩ hnone - hfree
  obtain ⟨-, -, -, hidentifier, -⟩ := (hs.formed i x (hs.member_of_within hi).kept hx).composite hop
  -- The names of the primitive gates begin with a capital letter.
  have hlower := startsLower_candidateName hidentifier x inverted k
  have hne {t : String} (ht : startsLower t = false) : candidateName (definitionName x base inverted) k ≠ t :=
    fun heq => by
    rw [heq, ht] at hlower
    cases hlower
  refine ⟨fun hword => (hs.calls_of_within hd hi hx hop).isNamed hword _, ⟨hnone, hfree, hne (by decide),
    hne (by decide)⟩,
    fun m hm => ?_⟩
  obtain ⟨j, hj, y, hy, hm⟩ := exists_of_forall₂ hbody m hm
  have hinside : s.Within c j := hi.inside ⟨x, hx, by rw [Instruction.inside, hop]; exact hj⟩
  exact isOn_of_isStated hlib hcallable hs hd hinside hy (GateDef.own_of_each htable) (fun _ h => h.mem) hm

/-- The statements of a program are those of instructions without a body, and calls of declared gates. -/
theorem reads_programBody_isAmong {is : List InstructionId} (his : ∀ i ∈ is, s.Within c i) :
    (programBody is []).Reads s fun r =>
      GateDef.Each (GateDef.IsDeclared lib) r.2 ∧ ∀ n ∈ r.1, n.IsAmong lib d.registers r.2 := by
  obtain rfl := hs.library c d hd
  refine (adds_programBody hs.toOrderly hd (yields_isDeclared hlib hcallable hs hd) his (GateDef.each_nil _)).imp
    fun r hr => ⟨hr.1.each, fun m hm => ?_⟩
  obtain ⟨i, hi, x, hx, hm⟩ := exists_of_forall₂ hr.2 m hm
  cases hcomposite : x.isComposite with
  | false =>
    rw [hcomposite] at hm
    exact .line (Store.isLine_of_within hlib hs hd (his i hi) hx hcomposite) hm
  | true =>
    rw [hcomposite] at hm
    obtain ⟨name, rfl, hname⟩ := hm
    obtain ⟨base, body, inverted, hop⟩ := Store.isComposite_iff.mp hcomposite
    exact .call (hs.calls_of_within hd (his i hi) hx hop) (.inr (Program.isSome_findGate?.mpr hname.mem))

/-- The program of a circuit is readable where it calls its gates by name. -/
theorem reads_toProgram_readable (hregs : Register.AreWritable d.registers) :
    (toProgram c).Reads s fun p => (∀ r ∈ p.qregs ++ p.cregs, Text.isShort r.2) ∧
      (p.callsByName → p.Readable lib) := by
  refine reads_circuit.bind fun y hy => ?_
  cases hd.symm.trans hy
  refine (reads_programBody_isAmong hlib hcallable hs hd fun i hi => .data hy hi).bind fun r hr =>
    reads_pure ⟨(Program.hasRegisters_ofStatements _ r.2 r.1).isShort (hs.short c d hd), fun hnames => ?_⟩
  obtain ⟨hgates, hbody⟩ := Bool.and_eq_true_iff.mp hnames
  refine Program.readable_ofStatements hregs (fun before g after hsplit text htext => ?_) fun n hn line hline => ?_
  · have hg : g ∈ r.2 := hsplit ▸ List.mem_append_right _ List.mem_cons_self
    exact (hr.1 before g after hsplit).exists_restates (List.all_eq_true.mp hgates g hg) htext
  · exact (hr.2 n hn).exists_restates hs.regular hcallable hregs (GateDef.own_of_each hr.1)
      (Program.hasRegisters_ofStatements _ _ _) rfl (List.all_eq_true.mp hbody n hn) hline

end

end Action

/-! ## The packaged library -/

namespace Store

open QasmCircuit.Action

/-- The text of the program of a circuit with plain names for its registers, and any names for its gates, is read as
this program if and only if the program calls its gates by name: its gates are declared under words, and no call
begins with a keyword of the place where it stands. -/
theorem Reachable.parse_toProgram_iff {s t : Store} {handed : List InstructionId} (hs : s.Reachable .packaged handed)
    {c : CircuitId} {x : Circuit} (hx : s.circuit? c = some x)
    (hregisters : ∀ r ∈ x.registers, r.kind ≠ .plain ∧ isPlainName r.name = true) {p : Program} {text : String}
    (hp : (toProgram c).Returns s p t) (htext : p.render = .ok text) :
    (∃ q, Program.parse .packaged text = .ok q ∧ q.unplaced = p.canonical) ↔ p.callsByName = true := by
  obtain ⟨lost, hsound, -⟩ := hs.exists_sound Library.isRegular_packaged
  obtain ⟨-, hsizes, hreadable⟩ := hp.ends.mp
    (reads_toProgram_readable Library.isAligned_packaged Library.isCallable_packaged
    hsound hx (hsound.areWritable hx hregisters))
  constructor
  · rintro ⟨q, hq, hreads⟩
    exact Program.callsByName_of_parse htext hq hreads
  · exact fun hnames => (hreadable hnames).parse_render hsizes htext

/-- A gate is called first in a body, and a gate is called behind a guard. Both names are keywords elsewhere. -/
def guardedKeywordCalls : List Call :=
  let q := Argument.bit .single
  let c := Argument.register .flag
  [.newCircuit none [c, .register Bit.single.register], .newComposite 0 (.datum (.text "measure")) [q] (.ok []),
    .applyGate (.gate 0) "x" [q] (.ok []), .newComposite 0 (.datum (.text "barrier")) [q] (.ok []), .attach (.gate 2) 0,
    .attach (.circuit 0) 2, .condition 2 c (.datum (.int 1))]

theorem Reachable.parse_toProgram_iff_guarded :
    let p := guardedKeywordCalls.foldl (next .packaged) ({}, [])
    p.1.Reachable .packaged p.2 ∧ ∃ x q u text, p.1.circuit? 0 = some x ∧
      (∀ r ∈ x.registers, r.kind ≠ .plain ∧ isPlainName r.name = true) ∧ (toProgram 0).Returns p.1 q u ∧
      q.gates.map GateDef.name = ["measure", "barrier"] ∧ q.render = .ok text ∧ q.callsByName = true ∧
      ∃ r, Program.parse .packaged text = .ok r ∧ r.unplaced = q.canonical := by
  intro p
  have hreach : p.1.Reachable .packaged p.2 := reachable_foldl .packaged guardedKeywordCalls (by decide +kernel)
  have hregisters : (p.1.circuit? 0).map (fun x =>
      decide (∀ r ∈ x.registers, r.kind ≠ .plain ∧ isPlainName r.name = true)) = some true := by decide +kernel
  have hprogram : ((toProgram 0).outcome p.1).1.toOption.map (fun q =>
      (q.gates.map GateDef.name, q.render.toOption.isSome, q.callsByName)) =
        some (["measure", "barrier"], true, true) := by decide +kernel
  obtain ⟨x, hx, hall⟩ := Option.map_eq_some_iff.mp hregisters
  obtain ⟨q, hq, hprogram⟩ := Option.map_eq_some_iff.mp hprogram
  obtain ⟨hnames, hrest⟩ := Prod.mk.inj hprogram
  obtain ⟨hsome, hcalls⟩ := Prod.mk.inj hrest
  obtain ⟨text, htext⟩ := Option.isSome_iff_exists.mp hsome
  rw [toOption_eq_some] at htext
  have hreturns := returns_of_toOption hq
  exact ⟨hreach, x, q, _, text, hx, of_decide_eq_true hall, hreturns, hnames, htext, hcalls,
    (hreach.parse_toProgram_iff hx (of_decide_eq_true hall) hreturns htext).mpr hcalls⟩

/-- A gate under the name that declarations begin with. -/
def keywordCalls : List Call :=
  let q := Argument.bit .single
  [.newCircuit none [.register Bit.single.register], .newComposite 0 (.datum (.text "gate")) [q] (.ok []),
    .applyGate (.gate 0) "x" [q] (.ok []), .attach (.circuit 0) 0]

/-- A keyword is an identifier, too, so a gate can have it as its name. The program of a circuit with this gate has a
text that cannot be read. -/
theorem Reachable.parse_toProgram_gate :
    let p := keywordCalls.foldl (next .packaged) ({}, [])
    p.1.Reachable .packaged p.2 ∧ ∃ x q u text, p.1.circuit? 0 = some x ∧
      (∀ r ∈ x.registers, r.kind ≠ .plain ∧ isPlainName r.name = true) ∧ (toProgram 0).Returns p.1 q u ∧
      q.render = .ok text ∧ ∀ r, Program.parse .packaged text ≠ .ok r := by
  intro p
  have hreach : p.1.Reachable .packaged p.2 := reachable_foldl .packaged keywordCalls (by decide +kernel)
  have hregisters : (p.1.circuit? 0).map (fun x =>
      decide (∀ r ∈ x.registers, r.kind ≠ .plain ∧ isPlainName r.name = true)) = some true := by decide +kernel
  have hprogram : ((toProgram 0).outcome p.1).1.toOption.map (fun q => q.render.toOption.map fun text =>
      (Program.parse .packaged text).toOption.isSome) = some (some false) := by decide +kernel
  obtain ⟨x, hx, hall⟩ := Option.map_eq_some_iff.mp hregisters
  obtain ⟨q, hq, hprogram⟩ := Option.map_eq_some_iff.mp hprogram
  obtain ⟨text, htext, hparse⟩ := Option.map_eq_some_iff.mp hprogram
  rw [toOption_eq_some] at htext
  refine ⟨hreach, x, q, _, text, hx, of_decide_eq_true hall, returns_of_toOption hq, htext, fun r hr => ?_⟩
  rw [hr] at hparse
  cases hparse

end Store

end QasmCircuit
