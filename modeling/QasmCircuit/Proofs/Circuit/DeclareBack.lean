import QasmCircuit.Proofs.Circuit.Declare

/-!
# Programs of circuits read back

A circuit becomes a program in which its gates with a body are declared. Each statement of the program stands for the
instructions that the gate at its place comes to once it is flattened, so that reading the text of the program gives a
circuit with the same flattened instructions.

> `Store.Reachable.ofText_toProgram`: the text with declarations reads back as the flattened circuit.
-/

namespace QasmCircuit

open Outcome Text

/-! ## Statements -/

/-- A statement of a program on some registers, with what it stands for: an instruction without a body, or a call. -/
inductive Node.Speaks (lib : Library) (regs : List Register) (gates : List GateDef) :
    Node → List Instruction → Prop
  | line {x : Instruction} {n : Node} (h : x.IsLine lib regs) (hn : x.statement? lib = some n) :
      Speaks lib regs gates n [x]
  | call {x : Instruction} {name : String} {zs : List Instruction} (h : x.CalledAs lib regs gates name zs) :
      Speaks lib regs gates (callNode name x) zs

section

variable {lib : Library} {regs : List Register} {table : List GateDef} {n : Node} {zs : List Instruction}

theorem Node.Speaks.stands (h : n.Speaks lib regs table zs) (hlib : lib.IsRegular) (hcallable : lib.IsCallable)
    (hregs : Register.AreWritable regs) (hown : ∀ g ∈ table, lib.contains g.name = false) :
    n.Stands lib regs table zs := by
  cases h with
  | line h hn =>
    obtain ⟨m, hm, hstands⟩ := h.exists_stands hlib hcallable hregs hown
    cases hn.symm.trans hm
    exact hstands
  | call h => exact h.stands hregs

end

namespace Action

variable {lib : Library} {lost loose : Set InstructionId} {s : Store} {c : CircuitId} {d : Circuit} {i : InstructionId}
  {x : Instruction}

/-- The statements of a program stand for what is at their places. -/
theorem reads_programBody (h : s.IsDeclarable lib lost loose c d) {is : List InstructionId}
    (his : ∀ i ∈ is, s.Within c i) : (programBody is []).Reads s fun r => GateDef.AreInOrder lib r.2 ∧
      ∃ parts, List.Forall₂ (fun i part => s.expand (s.instructions.size + 1) (s.element i) = some part) is parts ∧
        List.Forall₂ (Node.Speaks lib d.registers r.2) r.1 parts := by
  obtain rfl := h.library c d h.stored
  refine (adds_programBody h.toOrderly h.stored h.yields his (GateDef.each_nil _)).imp fun r hr => ⟨hr.1.each, ?_⟩
  obtain ⟨hadds, hbody⟩ := hr
  generalize r.1 = ns at hbody ⊢
  induction hbody with
  | nil => exact ⟨[], .nil, .nil⟩
  | @cons i m _ _ hfirst _ ih =>
    rw [List.forall_mem_cons] at his
    obtain ⟨x, hx, hm⟩ := hfirst
    obtain ⟨parts, hparts, hspeaks⟩ := ih his.2
    cases hcomposite : x.isComposite with
    | false =>
      rw [hcomposite] at hm
      refine ⟨[x] :: parts, .cons ?_ hparts, .cons (.line (h.isLine his.1 hx hcomposite) hm) hspeaks⟩
      rw [Store.element_of_leaf hx hcomposite, Store.expand_leaf]
    | true =>
      rw [hcomposite] at hm
      obtain ⟨name, rfl, hname⟩ := hm
      obtain ⟨y, zs, hy, hexpand, hcalled⟩ := h.isCalled hadds.each his.1 hname
      cases hx.symm.trans hy
      exact ⟨zs :: parts, .cons hexpand hparts, .cons (.call hcalled) hspeaks⟩

/-- The program of a circuit declares its gates in order, and its statements stand for the flattened circuit. -/
theorem reads_toProgram (h : s.IsDeclarable lib lost loose c d) :
    (toProgram c).Reads s fun p => ∃ gates ns parts, p = Program.ofStatements d.registers gates ns ∧
      GateDef.AreInOrder lib gates ∧ List.Forall₂ (Node.Stands lib d.registers gates) ns parts ∧
      s.flattened c = some parts.flatten := by
  refine reads_circuit.bind fun y hy => ?_
  cases h.stored.symm.trans hy
  refine (reads_programBody h fun i hi => .data hy hi).bind fun r hr => reads_pure ?_
  obtain ⟨hordered, parts, hparts, hspeaks⟩ := hr
  refine ⟨r.2, r.1, parts, rfl, hordered, ?_, ?_⟩
  · exact hspeaks.imp fun n zs hn => hn.stands h.regular h.callable h.registers hordered.own
  · exact Store.flattened_of_expandAll h.toSound hy
      (Store.expandAll_eq_some.mpr ⟨parts, List.forall₂_map_left_iff.mpr hparts, rfl⟩)

end Action

/-! ## The packaged library -/

namespace Store

open QasmCircuit.Action

/-- Declaring gates and expanding them come to the same. Where the program of a circuit has a text, with plain names for
registers and gates, the text reads back, whatever was built before, as a circuit with the same registers and the same
flattened instructions. So the text of that circuit has the lines of the circuit, too. -/
theorem Reachable.ofText_toProgram {s t : Store} {handed : List InstructionId} (hs : s.Reachable .packaged handed)
    {c : CircuitId} {x : Circuit} (hx : s.circuit? c = some x)
    (hregisters : ∀ r ∈ x.registers, r.kind ≠ .plain ∧ isPlainName r.name = true) (hgates : s.HasPlainGates c)
    {p : Program} {text : String} (hp : (toProgram c).Returns s p t) (htext : p.render = .ok text) :
    ∃ xs, s.flattened c = some xs ∧ ∀ u held, u.Reachable .packaged held → ∃ d v y ys,
      (Action.ofText .packaged text).Returns u d v ∧ v.circuit? d = some y ∧ y.registers.Perm x.registers ∧
      v.flattened d = some ys ∧ List.Forall₂ (Instruction.ReadsAs .packaged) xs ys ∧
      (circuitText d).Returns v (join "\n" (circuitLines .packaged y.registers xs) ++ "\n") v := by
  obtain ⟨lost, hsound, -⟩ := hs.exists_sound Library.isRegular_packaged
  have hwritable := hsound.areWritable hx hregisters
  have hdeclarable : s.IsDeclarable .packaged lost ∅ c x :=
    ⟨hsound, Library.isAligned_packaged, Library.isCallable_packaged, hx, hwritable, hgates⟩
  obtain ⟨-, gates, ns, parts, rfl, hordered, hstands, hflat⟩ := hp.ends.mp (reads_toProgram hdeclarable)
  obtain ⟨gateTexts, lines, hgateTexts, hlines, rfl⟩ := Program.exists_lines_of_render htext
  -- A gate that contains itself is never declared, so a circuit that has a program is nested.
  have hline : ∀ z ∈ parts.flatten, z.IsLine .packaged x.registers := by
    obtain ⟨xs, hxs, hline⟩ := exists_isLine Library.isAligned_packaged hsound
      (isNested_of_flattened (Option.isSome_iff_exists.mpr ⟨_, hflat⟩)) hx
    obtain rfl := Option.some.inj (hflat.symm.trans hxs)
    exact hline
  have hshort : ∀ z ∈ parts.flatten, z.isShort := by
    intro z hz
    obtain ⟨part, hpart, hmem⟩ := List.mem_flatten.mp hz
    obtain ⟨n, hn, hpart⟩ := exists_of_forall₂ hstands part hpart
    obtain ⟨line, hline'⟩ := Program.mem_of_mapM_ok hlines n hn
    exact (hline z hz).isShort hpart hmem hline'
  refine ⟨parts.flatten, hflat, fun u held hu => ?_⟩
  obtain ⟨q, y, v, hreturns, hlowered, -, hsorted⟩ := returns_ofText_statements Library.packaged_hasPrimitives hwritable
    hordered.areReadable hstands (Program.lists_registerList _) hgateTexts hlines (hsound.short c x hx) u
  have hreads := forall₂_readsAs hline u.circuits.size (Register.sorted x.registers)
  exact ⟨_, v, y, _, hreturns, hlowered.stored, hsorted ▸ hwritable.perm_sorted, hlowered.flattened, hreads,
    (hu.ofText hreturns).circuitText_of_readsAs hlowered.stored hlowered.flattened hline hshort hreads⟩

/-- Behind the gates of `printedCalls`, three gates of one name: two of them differ in the sign of a zero, and share a
declaration; the third one is declared under another name. -/
def declaredCalls : List Call :=
  let q := Argument.bit .single
  printedCalls ++ [.newComposite 0 (.datum (.text "g")) [q] (.ok []),
    .applyGate (.gate 5) "rx" [q] (.ok [.datum (.real (-0.0))]), .attach (.circuit 0) 5,
    .newComposite 0 (.datum (.text "g")) [q] (.ok []), .applyGate (.gate 7) "rx" [q] (.ok [.datum (.real 0.0)]),
    .attach (.circuit 0) 7, .newComposite 0 (.datum (.text "g")) [q] (.ok []),
    .applyGate (.gate 9) "z" [q] (.ok []), .attach (.circuit 0) 9]

theorem Reachable.ofText_toProgram_shared :
    let p := declaredCalls.foldl (next .packaged) ({}, [])
    p.1.Reachable .packaged p.2 ∧ p.1.HasPlainGates 0 ∧ ∃ x q u text xs, p.1.circuit? 0 = some x ∧
      (toProgram 0).Returns p.1 q u ∧ q.gates.map GateDef.name = ["cg", "cf", "g", "g_1"] ∧ q.render = .ok text ∧
      p.1.flattened 0 = some xs ∧ xs.length = 6 ∧ ∃ d v y ys, (Action.ofText .packaged text).Returns p.1 d v ∧
        v.circuit? d = some y ∧ y.registers.Perm x.registers ∧ v.flattened d = some ys ∧
        List.Forall₂ (Instruction.ReadsAs .packaged) xs ys := by
  intro p
  have hreach : p.1.Reachable .packaged p.2 := reachable_foldl .packaged declaredCalls (by decide +kernel)
  have hgates : p.1.HasPlainGates 0 := hasPlainGates_of_all (by decide +kernel) 0
  have hlength : (p.1.flattened 0).map List.length = some 6 := by decide +kernel
  have hregisters : (p.1.circuit? 0).map (fun x =>
      decide (∀ r ∈ x.registers, r.kind ≠ .plain ∧ isPlainName r.name = true)) = some true := by decide +kernel
  have hnames : ((toProgram 0).outcome p.1).1.toOption.map (fun q =>
      (q.gates.map GateDef.name, q.render.toOption.isSome)) = some (["cg", "cf", "g", "g_1"], true) := by decide +kernel
  obtain ⟨x, hx, hall⟩ := Option.map_eq_some_iff.mp hregisters
  obtain ⟨q, hq, hnames⟩ := Option.map_eq_some_iff.mp hnames
  obtain ⟨hnames, hsome⟩ := Prod.mk.inj hnames
  obtain ⟨text, htext⟩ := Option.isSome_iff_exists.mp hsome
  rw [toOption_eq_some] at htext
  have hreturns := returns_of_toOption hq
  obtain ⟨xs, hxs, hread⟩ := hreach.ofText_toProgram hx (of_decide_eq_true hall) hgates hreturns htext
  obtain ⟨d, v, y, ys, hreturns', hy, hperm, hys, hreads, -⟩ := hread _ _ hreach
  rw [hxs] at hlength
  exact ⟨hreach, hgates, x, q, _, text, xs, hx, hreturns, hnames, htext, hxs, Option.some.inj hlength, d, v, y, ys,
    hreturns', hy, hperm, hys, hreads⟩

end Store

end QasmCircuit
