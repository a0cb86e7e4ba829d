import QasmCircuit.Proofs.Circuit.Statement

/-!
# Circuits read back from programs

A program on the registers of a circuit, with some declarations, stands for some instructions (`Program.ofStatements`):
each of its statements stands for some of them (`Node.Stands`), and each declaration can be read back
(`GateDef.AreReadable`). So the lines of the program are read without a problem, the result is valid, and it is lowered
to a circuit that has these instructions on the same registers. Written again, the circuit has a line for each of them.

A register holds larger values than those that can be written (`Text.digitLimit`). So all this is about circuits in
which no condition has such a value.

> `Action.returns_ofText_statements`: the lines of a program are read as the instructions that it stands for.
> `Store.Reachable.circuitText_of_readsAs`: the text of what was read.
-/

namespace QasmCircuit

open Outcome Text List GateDef
open Register (AreWritable sorted)

variable {lib : Library} {s t : Store} {c : CircuitId} {regs : List Register} {gates : List GateDef}
  {xss : List (List Instruction)} {ns : List Node} {xs : List Instruction}

namespace Store

variable {lost loose : Set InstructionId} {d : Circuit}

/-- An instruction without a body in a circuit has a line. -/
theorem isLine_of_within (hlib : lib.IsAligned) (hs : s.Sound lib lost loose) (hd : s.circuit? c = some d)
    {i : InstructionId} (hi : s.Within c i) {x : Instruction} (hx : s.instruction? i = some x)
    (hleaf : x.isComposite = false) : x.IsLine lib d.registers := by
  have hproper := hs.proper i x (hs.member_of_within hi).kept hx
  refine ⟨hleaf, hproper, hs.fits_of_within hd hi hx, fun f hop => ?_⟩
  rw [Instruction.IsProper, hop] at hproper
  exact hproper.2.2.2.2 hlib

theorem Sound.areWritable (hs : s.Sound lib lost loose) (hd : s.circuit? c = some d)
    (h : ∀ r ∈ d.registers, r.kind ≠ .plain ∧ isPlainName r.name) : AreWritable d.registers :=
  ⟨hs.names c d hd, fun r hr => (isPlainName_iff.mp (h r hr).2).1, fun r hr => (h r hr).1⟩

/-- A circuit in which no gate contains itself can be flattened, and then each instruction has a line. -/
theorem exists_isLine (hlib : lib.IsAligned) (hs : s.Sound lib lost loose) (hc : s.IsNested c)
    (hd : s.circuit? c = some d) : ∃ xs, s.flattened c = some xs ∧ ∀ x ∈ xs, x.IsLine lib d.registers := by
  rw [flattened_of_some hd]
  refine expandAll_of_nests fun e he => ?_
  obtain ⟨i, hi, rfl⟩ := mem_map.mp he
  exact nests_of_isNested hs hc (.data hd hi) fun j x hj hx hleaf => isLine_of_within hlib hs hd hj hx hleaf

end Store

/-! ## Reading the lines -/

/-- Declarations that can be read back: each one calls gates of the library and gates that were declared before it, with
numbers as parameters, and gives them what they take. -/
structure GateDef.AreReadable (lib : Library) (gates : List GateDef) : Prop where
  own : ∀ g ∈ gates, lib.contains g.name = false
  restates : ∀ before g after, gates = before ++ g :: after → ∀ text, g.render = .ok text → ∃ d, g.Restates lib before d
  numeric : ∀ g ∈ gates, g.IsNumeric
  suits : ∀ g ∈ gates, ∀ n ∈ g.body, ∀ e ∈ n.canonical.effect?, e.Suits lib (gates.map GateDef.canonical) []

/-- The program of some declarations and statements on the registers of a circuit. -/
def Program.ofStatements (regs : List Register) (gates : List GateDef) (body : List Node) : Program where
  includes := [⟨"qelib1.inc", .origin⟩]
  qregs := Action.declarations .quantum regs
  cregs := Action.declarations .classical regs
  gates := gates
  body := body

namespace Program

theorem hasRegisters_ofStatements (regs : List Register) (gates : List GateDef) (body : List Node) :
    (ofStatements regs gates body).HasRegisters regs :=
  ⟨rfl, rfl⟩

theorem readable_ofStatements (hregs : AreWritable regs)
    (hgates : ∀ before g after, gates = before ++ g :: after → ∀ text, g.render = .ok text →
      ∃ d, g.Restates lib before d) (hns : ∀ n ∈ ns, ∀ line, n.statementLine = .ok line →
      ∃ s : Source.Statement, s.Restates lib (ofStatements regs gates ns) n) :
    (ofStatements regs gates ns).Readable lib := by
  have hhas := hasRegisters_ofStatements regs gates ns
  have hversion : Lexeme.isNumber "2.0" := by decide
  have hpath : Lexeme.isQuotable "qelib1.inc" := by decide
  exact ⟨hversion, forall_mem_singleton.mpr hpath, hhas.isRegister hregs, hhas.nodup_names hregs, hgates, hns⟩

theorem readable_of_stands (hregs : AreWritable regs) (hgates : AreReadable lib gates)
    (hns : Forall₂ (Node.Stands lib regs gates) ns xss) : (ofStatements regs gates ns).Readable lib := by
  refine readable_ofStatements hregs hgates.restates fun n hn line hline => ?_
  obtain ⟨xs, -, hstands⟩ := exists_of_forall₂ hns.flip n hn
  exact hstands.restates _ (hasRegisters_ofStatements regs gates ns) rfl line hline

theorem isNumeric_ofStatements (hgates : AreReadable lib gates)
    (hns : Forall₂ (Node.Stands lib regs gates) ns xss) : (ofStatements regs gates ns).IsNumeric := by
  refine ⟨hgates.numeric, fun n hn => ?_⟩
  obtain ⟨xs, -, hstands⟩ := exists_of_forall₂ hns.flip n hn
  exact hstands.numeric

theorem isValid_ofStatements (hgates : AreReadable lib gates) (hns : Forall₂ (Node.Stands lib regs gates) ns xss) :
    (ofStatements regs gates ns).canonical.IsValid lib := by
  refine ⟨rfl, forall_mem_singleton.mpr rfl, fun g hg n hn e he => ?_, fun n hn e he => ?_⟩
  · obtain ⟨g', hg', rfl⟩ := mem_map.mp hg
    obtain ⟨m, hm, rfl⟩ := mem_map.mp hn
    exact hgates.suits g' hg' m hm e he
  · obtain ⟨m, hm, rfl⟩ := mem_map.mp hn
    obtain ⟨xs, -, hstands⟩ := exists_of_forall₂ hns.flip m hm
    exact hstands.valid _ rfl e he

theorem instructions?_ofStatements (hns : Forall₂ (Node.Stands lib regs gates) ns xss) (home : CircuitId) :
    (ofStatements regs gates ns).canonical.instructions? lib home (sorted regs) =
      some (xss.flatten.map fun x => (x.restated lib home (sorted regs)).under x.condition) := by
  refine Option.bind_eq_some_iff.mpr ⟨xss.map (List.map fun x =>
    (x.restated lib home (sorted regs)).under x.condition), ?_, ?_⟩
  · rw [mapM_eq_some]
    show Forall₂ _ (ns.map Node.canonical) _
    rw [forall₂_map_left_iff, forall₂_map_right_iff]
    exact hns.imp fun n xs h => h.meaning home
  · rw [map_flatten]

end Program

namespace Action

/-- Declarations and statements that stand for some instructions are read as a circuit with these instructions. -/
theorem returns_ofText_statements (hlib : lib.HasPrimitives) (hregs : AreWritable regs)
    (hgates : AreReadable lib gates)
    (hns : Forall₂ (Node.Stands lib regs gates) ns xss) {ds : List (Bool × String × Int)}
    (hds : (Program.ofStatements regs gates ns).Lists ds) {gateTexts lines : List String}
    (hgateTexts : gates.mapM GateDef.render = .ok gateTexts) (hlines : ns.mapM Node.statementLine = .ok lines)
    (hsizes : ∀ r ∈ regs, isShort r.size) (s : Store) : ∃ (q : Program) (x : Circuit) (t : Store),
      (ofText lib (join "\n" ((Program.ofStatements regs gates ns).linesOf ds gateTexts lines) ++ "\n")).Returns s
        s.circuits.size t ∧ q.IsLowered lib s s.circuits.size t x (xss.flatten.map fun x =>
        (x.restated lib s.circuits.size (sorted regs)).under x.condition) ∧
      q.unplaced = (Program.ofStatements regs gates ns).canonical ∧ x.registers = sorted regs :=
  returns_ofText_lines hlib (Program.readable_of_stands hregs hgates hns)
    ((Program.hasRegisters_ofStatements regs gates ns).isShort hsizes) (Program.isNumeric_ofStatements hgates hns)
    (Program.isValid_ofStatements hgates hns) hds hgateTexts hlines
    (Program.hasRegisters_ofStatements regs gates ns).declares s
    (Program.instructions?_ofStatements hns s.circuits.size)

theorem forall₂_readsAs (hxs : ∀ x ∈ xs, x.IsLine lib regs) (home : CircuitId) (others : List Register) :
    Forall₂ (Instruction.ReadsAs lib) xs (xs.map fun x => (x.restated lib home others).under x.condition) := by
  rw [forall₂_map_right_iff, forall₂_same]
  exact fun x hx => (hxs x hx).readsAs home others

end Action

/-! ## The packaged library -/

theorem Library.isCallable_packaged : Library.packaged.IsCallable := by
  have hall : ∀ f ∈ Library.packaged.families, Lexeme.isWord f.name ∧
      f.name ∉ Keyword.statements.map Keyword.text ∧ 0 < f.arity := by decide +kernel
  refine ⟨fun f hf => ?_, fun f hf => (hall f (Library.mem_of_find? hf)).2.2⟩
  obtain ⟨hword, hfree, -⟩ := hall f (Library.mem_of_find? hf)
  exact ⟨hword, Tree.ofText?_eq_none hfree⟩

namespace Store

open QasmCircuit.Action

/-- The store in which a text was read is within reach. -/
theorem Reachable.ofText {handed : List InstructionId} (hs : s.Reachable lib handed)
    {text : String} (h : (Action.ofText lib text).Returns s c t) : t.Reachable lib handed := by
  have hrun : ((Call.ofText text).run lib).Returns s [] t := h.bind rfl
  have hcall := hs.call (.ofText text) (forall_mem_nil _)
  rw [hrun] at hcall
  exact hcall

/-- A circuit that is read has the lines that were read. -/
theorem Reachable.circuitText_of_readsAs {held : List InstructionId} (ht : t.Reachable .packaged held)
    {d : CircuitId} {y : Circuit} (hy : t.circuit? d = some y) {ys : List Instruction}
    (hys : t.flattened d = some ys) (hline : ∀ x ∈ xs, x.IsLine .packaged regs)
    (hshort : ∀ x ∈ xs, x.isShort) (hreads : Forall₂ (Instruction.ReadsAs .packaged) xs ys) :
    (circuitText d).Returns t (join "\n" (circuitLines .packaged y.registers xs) ++ "\n") t := by
  obtain ⟨lost, hsound, -⟩ := ht.exists_sound Library.isRegular_packaged
  have hwrites := writes_circuitText hsound hy hys (hasForm_of_flattened Library.isAligned_packaged hsound hys)
  have htext := hwrites.returns fun z hz => by
    obtain ⟨x, hx, hreads⟩ := exists_of_forall₂ hreads z hz
    exact hreads.isShort_eq.trans (hshort x hx)
  have hlines : ys.map (Instruction.line .packaged) = xs.map (Instruction.line .packaged) := by
    rw [maps_eq_iff]
    exact (forall₂_imp_of_mem hreads fun z hz _ h => (h.line_eq (hline z hz)).symm).flip.imp fun _ _ h => h.symm
  rwa [circuitLines, hlines] at htext

/-- A circuit with its classical register in front. A gate inside another one is controlled and conditioned, by an angle
that is a negative zero, and the result is measured. -/
def printedCalls : List Call :=
  let q := Argument.bit .single
  let r := Argument.register .lead
  let c := Argument.register .flag
  [.newCircuit none [c, .register Bit.single.register, r], .newComposite 0 (.datum (.text "g")) [q] (.ok []),
    .applyGate (.gate 0) "rx" [q] (.ok [.datum (.real (-0.0))]), .newComposite 0 (.datum (.text "f")) [q] (.ok []),
    .attach (.gate 2) 0, .callHelper (.gate 2) "barrier" [q], .attach (.circuit 0) 2, .control 2 [r],
    .condition 2 c (.datum (.int 1)), .callHelper (.circuit 0) "measure" [.register Bit.single.register, c]]

end Store

end QasmCircuit
