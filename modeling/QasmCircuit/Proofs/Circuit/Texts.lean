import QasmCircuit.Proofs.Circuit.Again
import QasmCircuit.Proofs.Circuit.Agree
import QasmCircuit.Proofs.Circuit.Statement

/-!
# Two ways to write a circuit

The text of a circuit is written instruction by instruction, or the circuit is made a program and the program rendered.
An instruction without a body gets the same line both ways (`Action.related_toNode`). So does a circuit without gates
that have one, except that a program declares all quantum registers first.

> `Store.Arises.related_texts`: the two texts of instructions and of circuits.
-/

namespace QasmCircuit

open Outcome Text List

variable {s : Store} {x : Instruction} {c : CircuitId} {d : Circuit}

namespace Action

variable {i : InstructionId} {is : List InstructionId} {table : List GateDef} {n : Nat}

/-- An instruction without a body that can be written: its parameters are finite, and it measures one bit into
another. -/
structure IsSingle (s : Store) (i : InstructionId) (x : Instruction) : Prop where
  stored : s.instruction? i = some x
  leaf : x.isComposite = false
  finite : x.isAtomic → ∀ p ∈ x.params, p.isFinite
  bits : x.operation = .measure → x.args.length = 2
  free : x.operation = .barrier → x.condition = none

/-- The text of an instruction without a body is the line of its statement. The line can be written just if the value of
the condition can. -/
theorem exists_toNode (h : IsSingle s i x) : ∃ r : Except Fault Node, (toNode i).outcome s = (r, s) ∧
    (∀ n, (instructionText (n + 1) i).outcome s = (r >>= Node.statementLine, s)) ∧
    ∀ m, r = .ok m → ∃ line : String, m.statementLine = showing x.isShort line ∧ line.isEmpty = false := by
  have hline (text : String) : (text ++ ";").isEmpty = false := isEmpty_append.trans (Bool.and_false _)
  have hwritten (text : String) :
    (do pure ((← lift (conditionText x.condition text)) ++ ";") : Action String).outcome s =
      (conditionText x.condition text >>= fun t => pure (t ++ ";"), s) := by
    cases conditionText x.condition text <;> rfl
  have hfetch : ∀ {α : Type} (f : Instruction → Action α), (instruction i >>= f).outcome s = (f x).outcome s := by
    intro α f
    rw [outcome_bind, show _ = _ from returns_instruction h.stored]
  simp only [instructionText, toNode, hfetch]
  cases hop : x.operation with
  | atomic f =>
    have hname : (writtenName x f).Reads s fun _ => True :=
      reads_circuit.bind fun d _ => reads_lift.bind fun g _ => reads_pure trivial
    have hfinite := h.finite (by rw [Instruction.isAtomic, hop])
    dsimp only
    rcases hname.cases with ⟨name, hname, -⟩ | ⟨e, he⟩
    · obtain ⟨text, hcall⟩ : ∃ text, callOnBits name x.params x.allBits = .ok text :=
        ⟨_, by rw [callOnBits, mapM_realText hfinite]; rfl⟩
      have hstatement : (callNode name x).statementLine =
          conditionText x.condition text >>= fun t => pure (t ++ ";") := by
        rw [statementLine_callNode, hcall]
        rfl
      refine ⟨.ok (callNode name x), ?_, fun n => ?_, ?_⟩
      · rw [outcome_bind, show _ = _ from hname]
        rfl
      · rw [outcome_bind, show _ = _ from hname]
        simp only [hcall]
        exact (hwritten text).trans (congrArg (·, s) hstatement.symm)
      · rintro m ⟨⟩
        exact ⟨_, (hstatement.trans (congrArg (· >>= _) (x.conditionText_eq text))).trans (Instruction.showing_bind _),
          hline _⟩
    · refine ⟨.error e, ?_, fun n => ?_, fun m hm => by cases hm⟩
      · rw [outcome_bind, he]
      · rw [outcome_bind, he]
        rfl
  | barrier =>
    refine ⟨_, rfl, fun n => congrArg (·, s) (statementLine_barrier x.args).symm, ?_⟩
    rintro m ⟨⟩
    rw [Instruction.isShort_of_none (h.free hop)]
    exact ⟨_, statementLine_barrier x.args, hline _⟩
  | measure =>
    obtain ⟨q, b, hargs⟩ := length_eq_two.mp (h.bits hop)
    rw [hargs]
    have hstatement := statementLine_measure q b x.condition
    refine ⟨_, rfl, fun n => (hwritten _).trans (congrArg (·, s) hstatement.symm), ?_⟩
    rintro m ⟨⟩
    exact ⟨_, (hstatement.trans (congrArg (· >>= _) (x.conditionText_eq _))).trans (Instruction.showing_bind _),
      hline _⟩
  | composite name body inverted =>
    have hleaf := h.leaf
    exact absurd_leaf hleaf hop

theorem related_toNode (h : IsSingle s i x) (hshort : x.isShort) :
    Related (fun line m => m.statementLine = .ok line ∧ line.isEmpty = false) (instructionText (n + 1) i) s
      (toNode i) s := by
  obtain ⟨r, hr, htext, hline⟩ := exists_toNode h
  refine ⟨_, r, htext n, hr, ?_⟩
  cases r with
  | error e => rfl
  | ok m =>
    obtain ⟨line, hm, hne⟩ := hline m rfl
    rw [hshort] at hm
    show Match _ m.statementLine (.ok m)
    rw [hm]
    exact ⟨hm, hne⟩

theorem outcome_programStatement (h : IsSingle s i x) :
    (programStatement i table).outcome s = (toNode i >>= fun m => pure (m, table)).outcome s := by
  rw [programStatement, outcome_bind, show _ = _ from returns_instruction h.stored]
  dsimp only
  split
  · next hop =>
    have hleaf := h.leaf
    exact absurd_leaf hleaf hop
  · rfl

/-- The lines of instructions without a body are those of the statements of a program, and nothing is declared for
them. -/
theorem related_programBody_single (h : ∀ i ∈ is, ∃ x, IsSingle s i x ∧ x.isShort) :
    Related (fun ls p => p.1.mapM Node.statementLine = .ok ls ∧ p.2 = table ∧ ∀ l ∈ ls, l.isEmpty = false)
      (is.mapM (instructionText (n + 1))) s (programBody is table) s := by
  induction is with
  | nil => exact related_pure ⟨rfl, rfl, forall_mem_nil _⟩
  | cons i is ih =>
    obtain ⟨⟨x, hx, hshort⟩, hrest⟩ := forall_mem_cons.mp h
    have hstatement : Related (fun line p => (p.1.statementLine = .ok line ∧ line.isEmpty = false) ∧ p.2 = table)
        (instructionText (n + 1) i) s (programStatement i table) s := by
      rw [Related, outcome_programStatement hx, ← bind_pure (instructionText (n + 1) i)]
      exact (related_toNode hx hshort).bind fun _ _ h => related_pure ⟨h, rfl⟩
    rw [mapM_cons]
    refine hstatement.bind ?_
    rintro line ⟨m, _⟩ ⟨⟨hline, hne⟩, rfl⟩
    refine (ih hrest).bind ?_
    rintro ls ⟨ms, _⟩ ⟨hls, rfl, hall⟩
    refine related_pure ⟨?_, rfl, forall_mem_cons.mpr ⟨hne, hall⟩⟩
    rw [mapM_cons, hline]
    exact bind_eq_ok.mpr ⟨_, rfl, bind_eq_ok.mpr ⟨ls, hls, rfl⟩⟩

/-- An instruction that is written has a short condition, whichever way it is written. -/
theorem reads_single (h : IsSingle s i x) :
    ((instructionText (n + 1) i).Reads s fun _ => x.isShort) ∧
      (toNode i).Reads s fun m => ∀ line, m.statementLine = .ok line → x.isShort := by
  obtain ⟨r, hr, htext, hline⟩ := exists_toNode h
  unfold Reads Ends
  rw [htext n, hr]
  cases r with
  | error e => exact ⟨rfl, rfl⟩
  | ok m =>
    obtain ⟨line, hm, -⟩ := hline m rfl
    refine ⟨?_, rfl, fun line' hline' => (showing_eq_ok.mp (hm.symm.trans hline')).1⟩
    rw [show (Except.ok m >>= Node.statementLine) = m.statementLine from rfl, hm]
    cases x.isShort with
    | true => exact ⟨rfl, rfl⟩
    | false => rfl

theorem reads_programBody_single (h : ∀ i ∈ is, ∃ x, IsSingle s i x) :
    (programBody is table).Reads s fun p => ∀ ls, p.1.mapM Node.statementLine = .ok ls →
      ∀ i ∈ is, ∀ x, s.instruction? i = some x → x.isShort := by
  induction is generalizing table with
  | nil => exact reads_pure fun _ _ => forall_mem_nil _
  | cons i is ih =>
    obtain ⟨⟨x, hx⟩, hrest⟩ := forall_mem_cons.mp h
    have hstatement : (programStatement i table).Reads s fun p => ∀ line, p.1.statementLine = .ok line → x.isShort := by
      rw [Reads, Ends, outcome_programStatement hx]
      exact (reads_single (n := 0) hx).2.bind fun m hm => reads_pure hm
    refine hstatement.bind fun p hp => (ih hrest).bind fun q hq => reads_pure fun ls hls => ?_
    rw [mapM_cons] at hls
    obtain ⟨line, hline, hls⟩ := bind_eq_ok.mp hls
    obtain ⟨ls', hls', -⟩ := bind_eq_ok.mp hls
    refine forall_mem_cons.mpr ⟨fun y hy => ?_, hq ls' hls'⟩
    cases hx.stored.symm.trans hy
    exact hp line hline

def programText (c : CircuitId) : Action String := do lift (← toProgram c).render

def textWith (regs : List Register) (lines : List String) : String :=
  join "\n" (["OPENQASM 2.0;", includeText "qelib1.inc"] ++ regs.map Register.text ++ lines) ++ "\n"

theorem map_registerLine (kind : RegisterKind) (word : String) (regs : List Register)
    (h : ∀ r : Register, r.kind = kind → r.text = registerLine word (r.name, r.size)) :
    (declarations kind regs).map (registerLine word) = (regs.filter fun r => r.kind == kind).map Register.text := by
  rw [declarations, map_map]
  exact map_congr_left fun r hr => (h r (beq_iff_eq.mp (mem_filter.mp hr).2)).symm

theorem related_programText (hd : s.circuit? c = some d)
    (h : ∀ i ∈ d.data, ∃ x, IsSingle s i x ∧ x.isShort) :
    Related (fun text text' => ∃ ls, text = textWith d.registers ls ∧ text' = textWith (Register.sorted d.registers) ls)
      (circuitText c) s (programText c) s := by
  rw [circuitText, programText, toProgram, bind_assoc]
  refine related_circuit hd hd ?_
  show Related _ (d.data.mapM (instructionText (s.instructions.size + 1)) >>= _) s _ s
  rw [bind_assoc]
  refine (related_programBody_single h).bind ?_
  rintro ls ⟨ms, _⟩ ⟨hls, rfl, hne⟩
  have hlines : (ls.filter fun l => !l.isEmpty) = ls := filter_eq_self.mpr fun l hl => by rw [hne l hl]; rfl
  have hquantum := map_registerLine .quantum "qreg" d.registers fun r hr => by rw [Register.text, hr]; rfl
  have hclassical := map_registerLine .classical "creg" d.registers fun r hr => by rw [Register.text, hr]; rfl
  show Related _ (pure _) s (lift (ms.mapM Node.statementLine >>= _)) s
  rw [hls, hlines]
  refine related_pure ⟨ls, rfl, ?_⟩
  show join "\n" (_ ++ _ ++ _ ++ [] ++ ls) ++ "\n" = _
  rw [append_nil, hquantum, hclassical, append_assoc _ _ (List.map _ _), ← map_append]
  rfl

/-- A circuit that has a text, of either kind, has short conditions. -/
theorem reads_texts (hd : s.circuit? c = some d)
    (h : ∀ i ∈ d.data, ∃ x, IsSingle s i x) :
    ((circuitText c).Reads s fun _ => ∀ i ∈ d.data, ∀ x, s.instruction? i = some x → x.isShort) ∧
      (programText c).Reads s fun _ => ∀ i ∈ d.data, ∀ x, s.instruction? i = some x → x.isShort := by
  constructor
  · refine reads_circuit.bind fun y hy => reads_depth.bind fun n hn => ?_
    cases hd.symm.trans hy
    subst hn
    have hline : ∀ i ∈ d.data, (instructionText (s.instructions.size + 1) i).Reads s fun _ =>
        ∀ x, s.instruction? i = some x → x.isShort := by
      intro i hi
      obtain ⟨x, hx⟩ := h i hi
      refine (reads_single hx).1.imp fun _ hshort y hy => ?_
      cases hx.stored.symm.trans hy
      exact hshort
    refine (Reads.mapM hline).bind fun ls hls => reads_pure fun i hi => ?_
    obtain ⟨_, -, hshort⟩ := exists_of_forall₂ hls.flip i hi
    exact hshort
  · rw [programText, toProgram, bind_assoc]
    refine reads_circuit.bind fun y hy => ?_
    cases hd.symm.trans hy
    rw [bind_assoc]
    refine (reads_programBody_single h).bind fun p hp => ?_
    obtain ⟨body, gates⟩ := p
    refine Reads.imp (reads_lift (s := s)) fun text htext => ?_
    obtain ⟨-, lines, -, hlines, -⟩ := Program.exists_lines_of_render htext
    exact hp lines hlines

end Action

open QasmCircuit.Action

/-- In a session with accepted libraries, an instruction without a body has the same line both ways, or the same fault
both ways. A circuit that only has such instructions, on quantum and classical registers, has two texts with the same
lines up to the order of the registers, or the same fault twice. It has neither text if a condition has a value with too
many digits. -/
theorem Store.Arises.related_texts {libs : Set Library} {s : Store} {handed : List InstructionId}
    (hs : s.Arises libs handed) (hlibs : ∀ lib ∈ libs, ∃ datum, Library.ofDatum datum = .ok lib) :
    (∀ i x, s.InReach handed i → s.instruction? i = some x → x.isComposite = false →
      ∀ n, Related Eq (instructionText (n + 1) i) s (do lift (← toNode i).statementLine) s) ∧
    ∀ c d, s.circuit? c = some d → (∀ r ∈ d.registers, r.kind ≠ .plain) →
      (∀ i ∈ d.data, ∀ x, s.instruction? i = some x → x.isComposite = false) →
      (Register.sorted d.registers).Perm d.registers ∧
      ((∀ i ∈ d.data, ∀ x, s.instruction? i = some x → x.isShort) →
        Related (fun text text' => ∃ ls, text = textWith d.registers ls ∧
          text' = textWith (Register.sorted d.registers) ls) (circuitText c) s (programText c) s) ∧
      ((¬ ∀ i ∈ d.data, ∀ x, s.instruction? i = some x → x.isShort) →
        (∃ e, (circuitText c).outcome s = (.error e, s)) ∧ ∃ e, (programText c).outcome s = (.error e, s)) := by
  obtain ⟨lost, horderly, hknown⟩ := hs.exists_orderly
  have hsingle : ∀ i x, i ∉ lost → s.instruction? i = some x → x.isComposite = false → IsSingle s i x := by
    refine fun i x hi hx hleaf => ⟨hx, hleaf, fun hatomic => ?_, fun hop => ?_, fun hop => ?_⟩
    · refine horderly.finite i x hx hatomic fun lib hlib => ?_
      obtain ⟨datum, hdatum⟩ := hlibs lib hlib
      exact Library.isRegular_of_ofDatum hdatum
    · have hproper := (horderly.formed i x hi hx).isProper (by rw [Instruction.isAtomic, hop]) ⟨[]⟩
      rw [Instruction.IsProper, hop] at hproper
      exact hproper.1
    · have hproper := (horderly.formed i x hi hx).isProper (by rw [Instruction.isAtomic, hop]) ⟨[]⟩
      rw [Instruction.IsProper, hop] at hproper
      exact hproper.2.2.1
  refine ⟨fun i x hi hx hleaf n => ?_, fun c d hd hkinds hleaves => ⟨Register.perm_sorted hkinds, ?_⟩⟩
  · obtain ⟨r, hr, htext, -⟩ := exists_toNode (hsingle i x (hknown i hi).1 hx hleaf)
    refine ⟨_, r >>= Node.statementLine, htext n, ?_, by cases r >>= Node.statementLine <;> rfl⟩
    rw [outcome_bind, hr]
    cases r with
    | error e => rfl
    | ok m =>
      show (lift m.statementLine).outcome s = (m.statementLine, s)
      cases m.statementLine <;> rfl
  · have hall : ∀ i ∈ d.data, ∃ x, IsSingle s i x := by
      intro i hi
      obtain ⟨hkept, -, x, hx, -⟩ := horderly.data c d hd i hi
      exact ⟨x, hsingle i x hkept hx (hleaves i hi x hx)⟩
    refine ⟨fun hshort => related_programText hd fun i hi => ?_, fun hlong => ?_⟩
    · obtain ⟨x, hx⟩ := hall i hi
      exact ⟨x, hx, hshort i hi x hx.stored⟩
    · obtain ⟨hcircuit, hprogram⟩ := reads_texts hd hall
      refine ⟨(Reads.cases hcircuit).resolve_left ?_, (Reads.cases hprogram).resolve_left ?_⟩
      · rintro ⟨_, -, hshort⟩
        exact hlong hshort
      · rintro ⟨_, -, hshort⟩
        exact hlong hshort

/-- A classical register that comes first is declared last in the program. -/
theorem Store.Arises.related_texts_mixed :
    let s := ([Call.newCircuit none [.register .flag, .register Bit.single.register],
      .applyGate (.circuit 0) "x" [.bit .single] (.ok [])].foldl (Store.next (.pair "x" "cx" 1)) ({}, [])).1
    ∃ d, s.circuit? 0 = some d ∧ Register.sorted d.registers ≠ d.registers ∧ d.data ≠ [] ∧
      Related (fun text text' => ∃ ls, text = textWith d.registers ls ∧
        text' = textWith (Register.sorted d.registers) ls) (circuitText 0) s (programText 0) s := by
  have hs := Store.reachable_foldl (.pair "x" "cx" 1)
    [.newCircuit none [.register .flag, .register Bit.single.register],
    .applyGate (.circuit 0) "x" [.bit .single] (.ok [])] (by decide +kernel)
  have hlib : (Library.ofDatum (.pair "x" "cx" 1)).toOption = some (.pair "x" "cx" 1) := by decide +kernel
  intro s
  have hcircuit : (s.circuit? 0).any (fun d => d.registers.all (fun r => r.kind != .plain) &&
      d.data.all (fun i => (s.instruction? i).all fun x => !x.isComposite) &&
      d.data.all (fun i => (s.instruction? i).all Instruction.isShort) &&
      (Register.sorted d.registers != d.registers && d.data != [])) = true := by decide +kernel
  obtain ⟨d, hd, hfacts⟩ := (Option.any_eq_true _ _).mp hcircuit
  simp only [Bool.and_eq_true, List.all_eq_true, bne_iff_ne, Option.all_eq_true, Bool.not_eq_true'] at hfacts
  obtain ⟨⟨⟨hkinds, hleaves⟩, hshort⟩, hsorted, hdata⟩ := hfacts
  have haccepted : ∀ lib ∈ ({.pair "x" "cx" 1} : Set Library), ∃ datum, Library.ofDatum datum = .ok lib :=
    fun lib hmem => ⟨.pair "x" "cx" 1, hmem ▸ toOption_eq_some.mp hlib⟩
  exact ⟨d, hd, hsorted, hdata, ((hs.arises.related_texts haccepted).2 0 d hd hkinds hleaves).2.1 hshort⟩

end QasmCircuit
