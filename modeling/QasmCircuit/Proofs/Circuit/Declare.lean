import QasmCircuit.Proofs.Circuit.Table

/-!
# Declaring gates

A gate with a body is declared behind the gates that it calls. Such a declaration can be read back
(`Store.IsDeclarable.yields`), and the name that the gate has got stands for the flattened gate
(`Store.IsDeclarable.isCalled`). A name that is in use already is taken only for a declaration with the same text, which
is then the same one.
-/

namespace QasmCircuit

open Outcome Source List
open Program (GateScope)

variable {name base text : String} {x : Instruction} {lib : Library} {regs : List Register}
  {gates : List GateDef} {statements : List Node} {parts : List (List Instruction)}
  {lost loose : Set InstructionId} {c : CircuitId} {d : Circuit} {i : InstructionId}

/-! ## Names -/

variable {s : String} {body : List InstructionId} {inverted : Bool}

theorem isIdentifier_of_isPlainName (h : isPlainName s) : isIdentifier s := by
  obtain ⟨hword, hlower⟩ := isPlainName_iff.mp h
  rw [Program.isIdentifier_of_isWord hword, hlower]

theorem isPlainName_append {t : String} (hs : isPlainName s) (ht : t.toList.all Lexeme.isWordChar) :
    isPlainName (s ++ t) := by
  obtain ⟨hword, hlower⟩ := isPlainName_iff.mp hs
  exact isPlainName_iff.mpr ⟨Lexeme.isWord_append hword ht, Program.startsLower_append hlower t⟩

/-- The name of a gate with letters for its controls and a mark for its inverse is a plain one. -/
theorem isPlainName_definitionName (h : isPlainName name) (x : Instruction) (inverted : Bool) :
    isPlainName (definitionName x name inverted) := by
  have hcontrols : isPlainName (String.ofList (List.replicate x.controlBits.length 'c') ++ name) := by
    cases x.controlBits.length with
    | zero =>
      rw [replicate_zero, String.ofList_nil, String.empty_append]
      exact h
    | succ n =>
      refine isPlainName_append ?_ (Lexeme.all_isWordChar_of_isWord (isPlainName_iff.mp h).1)
      unfold isPlainName
      rw [String.toList_ofList, replicate_succ]
      refine Bool.and_eq_true_iff.mpr ⟨rfl, all_eq_true.mpr fun c hc => ?_⟩
      rw [eq_of_mem_replicate hc]
      rfl
  refine isPlainName_append hcontrols ?_
  cases inverted <;> decide

theorem isName_of_isPlainName (h : isPlainName s)
    (hfree : s ∉ Keyword.statements.map Keyword.text) : IsName Keyword.statements s :=
  ⟨(isPlainName_iff.mp h).1, Tree.ofText?_eq_none hfree⟩

/-- All names that are tried are plain ones, and none of them is a keyword. -/
theorem isName_candidateName (h : isPlainName base)
    (hfree : base ∉ Keyword.statements.map Keyword.text) (k : Nat) :
    isPlainName (candidateName base k) ∧ IsName Keyword.statements (candidateName base k) := by
  unfold candidateName
  by_cases hk : k = 0
  · rw [if_pos hk]
    exact ⟨h, isName_of_isPlainName h hfree⟩
  · rw [if_neg hk]
    have hplain : isPlainName (base ++ "_" ++ toString k) :=
      isPlainName_append (isPlainName_append h (by decide)) (Lexeme.all_isWordChar_toString k)
    refine ⟨hplain, isName_of_isPlainName hplain fun hmem => ?_⟩
    -- No keyword has an underscore.
    have hkeywords : ∀ t ∈ Keyword.statements.map Keyword.text, '_' ∉ t.toList := by decide
    have hmark := underscore_mem_candidateName base hk
    rw [candidateName, if_neg hk] at hmark
    exact hkeywords _ hmem hmark

/-! ## Declarations -/

/-- A statement in the body of a gate on some bits, with what it stands for: a call, or a barrier. -/
inductive Node.SpeaksIn (lib : Library) (regs : List Register) (gates : List GateDef) (formals : FormalArgs)
    (bits : List Bit) : Node → List Instruction → Prop
  | call {x : Instruction} {name : String} {names : List String} {zs : List Instruction}
      (h : x.CalledAs lib regs gates name zs) (hformals : formals.AreFor regs bits x names) :
      SpeaksIn lib regs gates formals bits
        (.call name .origin (paramTerms x.params) ((names.map formalRef).map .ref) none) zs
  | barrier {x : Instruction} {names : List String} (h : x.IsLine lib regs) (hop : x.operation = .barrier)
      (hformals : formals.AreFor regs bits x names) :
      SpeaksIn lib regs gates formals bits (.barrier .origin ((names.map formalRef).map .ref)) [x]

section

variable {formals : FormalArgs} {bits : List Bit} {n : Node} {zs : List Instruction}

theorem Node.SpeaksIn.standsIn (h : n.SpeaksIn lib regs gates formals bits zs)
    (hregs : Register.AreWritable regs) : n.StandsIn lib regs gates formals bits zs := by
  cases h with
  | call h hformals => exact h.standsIn hregs hformals
  | barrier h hop hformals => exact h.standsIn_barrier hop hregs hformals gates

/-- A body with a text can be written. -/
theorem exists_bodyRestates_of_standsIn {ns : List Node}
    (h : Forall₂ (Node.StandsIn lib regs gates formals bits) ns parts) {g : GateScope}
    (hg : g.args = formals.map (·.2)) {lines : String} (hlines : Node.bodyLines ns = .ok lines)
    {keywords : List Keyword}
    (hkeywords : keywords ⊆ Keyword.statements) : ∃ body, BodyRestates lib gates g keywords body ns := by
  induction h generalizing keywords lines with
  | nil => exact ⟨[], .nil⟩
  | @cons n part ns parts hn _ ih =>
    obtain ⟨⟨line, hline⟩, more, hmore⟩ := exists_of_bodyLines_cons hlines
    -- Only the first statement is read with the given keywords; those behind it are read with all of them.
    obtain ⟨s, hs⟩ := hn.restates g keywords hg hkeywords _ hline
    obtain ⟨body, hbody⟩ := ih hmore (List.Subset.refl _)
    exact ⟨s :: body, .cons hs hbody⟩

theorem bodyLines_of_render {g : GateDef} (h : g.render = .ok text) :
    ∃ lines, Node.bodyLines g.body = .ok lines := by
  obtain ⟨lines, hlines, -⟩ := bind_eq_ok.mp h
  exact ⟨lines, hlines⟩

end

/-- A declaration under a word has all the names that it needs. -/
theorem Instruction.Calls.isNamed (h : x.Calls regs)
    (hname : Lexeme.isWord name) (statements : List Node) :
    (Action.declarationOf x (formalArgs x) statements name).IsNamed := by
  have hformals := formalArgs_names h.distinct
  refine ⟨hname, isWord_of_mem_numbered (by decide), hformals.words, fun hnil => h.some_qubit ?_,
    Program.repeats_eq_false.mpr (nodup_numbered "p" _), Program.repeats_eq_false.mpr hformals.names⟩
  rw [← length_eq_zero_iff, ← hformals.length_eq]
  exact congrArg List.length hnil

/-- The statements of the declaration of a gate, with what they stand for. -/
structure Instruction.Declares (lib : Library) (regs : List Register) (gates : List GateDef) (x : Instruction)
    (statements : List Node) (parts : List (List Instruction)) : Prop where
  calls : x.Calls regs
  statements : Forall₂ (Node.SpeaksIn lib regs gates (formalArgs x) x.allBits) statements parts
  conditions : ∀ z ∈ parts.flatten, z.isBarrier = false → z.condition = x.condition

namespace Instruction.Declares

section

variable (h : x.Declares lib regs gates statements parts)

include h

section

variable (hregs : Register.AreWritable regs)

include hregs

theorem standsIn : Forall₂ (Node.StandsIn lib regs gates (formalArgs x) x.allBits) statements parts :=
  h.statements.imp fun _ _ hn => hn.standsIn hregs

theorem exists_bodyRestates
    (htext : (Action.declarationOf x (formalArgs x) statements name).render = .ok text) :
    ∃ body, BodyRestates lib gates (Action.declarationOf x (formalArgs x) statements name).scope Context.body.keywords
      body statements := by
  obtain ⟨lines, hlines⟩ := bodyLines_of_render htext
  exact exists_bodyRestates_of_standsIn (h.standsIn hregs) rfl hlines (by decide)

/-- The declaration of a gate can follow those of the gates that it calls. -/
theorem follows
    (hname : IsName Keyword.statements name) (hnew : findGate? gates name = none) (hfree : lib.contains name = false) :
    (Action.declarationOf x (formalArgs x) statements name).Follows lib gates := by
  have hkeyword : ∀ k ∈ Keyword.statements, name ≠ k.text := fun k hk heq =>
    find?_eq_none.mp hname.2 k hk (beq_iff_eq.mpr heq.symm)
  refine ⟨h.calls.isNamed hname.1 _, ⟨hnew, hfree, hkeyword .unitary (by decide), hkeyword .controlledNot (by decide)⟩,
    fun n hn => ?_, fun text htext => h.exists_bodyRestates hregs htext, fun n hn => ?_, fun n hn => ?_⟩
  all_goals obtain ⟨zs, -, hstands⟩ := exists_of_forall₂ (h.standsIn hregs).flip n hn
  · exact hstands.numeric
  · exact hstands.known
  · exact hstands.suits

/-- A declaration that is the same up to the signs of zeros stands for the gate. -/
theorem calledAs
    (hgates : GateDef.AreInOrder lib gates) (hplain : isPlainName name) (hname : IsName Keyword.statements name)
    {g : GateDef} (hg : findGate? gates name = some g)
    (hsame : g.canonical = (Action.declarationOf x (formalArgs x) statements name).canonical) :
    x.CalledAs lib regs gates name parts.flatten := by
  have hformals := formalArgs_names h.calls.distinct
  have hargs : g.args = (formalArgs x).map (·.2) := congrArg GateDef.args hsame
  have hparams : g.params = numbered "p" x.params.length := congrArg GateDef.params hsame
  have hbody : g.body.map Node.canonical = statements.map Node.canonical := congrArg GateDef.body hsame
  obtain rfl := Program.findGate?_name hg
  refine ⟨h.calls, hname, .inr (by rw [hg]; rfl), ?_, h.conditions, fun home => ?_⟩
  · unfold Takes
    rw [@findGate?_map GateDef.canonical fun _ => rfl, hg, Option.map_some]
    refine ⟨?_, ?_⟩
    · show x.params.length = g.params.length
      rw [hparams, numbered, length_map, length_range]
    · show x.allBits.length = g.args.length
      rw [hargs, hformals.length_eq]
  · -- The gate in the table may have other signs of zeros, but a call looks at canonical bodies only.
    rw [hgates.expansion?_of_mem (mem_of_find?_eq_some hg) (isIdentifier_of_isPlainName hplain), hbody, hargs]
    refine Option.map_eq_some_iff.mpr ⟨parts.map (List.map (restated lib home (Register.sorted regs))), ?_, ?_⟩
    · rw [mapM_eq_some, forall₂_map_left_iff, forall₂_map_right_iff]
      exact (h.standsIn hregs).imp fun n zs hn => hn.meaning home _
    · rw [map_flatten]

end

end

end Instruction.Declares

/-! ## Steps -/

/-- Whether a gate has a plain name, and would not be declared under a keyword. Only gates with a body are declared. -/
def Instruction.hasPlainName (x : Instruction) : Bool :=
  match x.operation with
  | .composite name _ inverted =>
    isPlainName name && !(Keyword.statements.map Keyword.text).contains (definitionName x name inverted)
  | _ => true

/-- The gates of a circuit have plain names, on all levels. -/
def Store.HasPlainGates (s : Store) (c : CircuitId) : Prop :=
  ∀ i x, s.Within c i → s.instruction? i = some x → x.hasPlainName

/-- A circuit whose gates can be declared: its registers can be written, and its gates have names that can. -/
structure Store.IsDeclarable (lib : Library) (lost loose : Set InstructionId) (s : Store) (c : CircuitId)
    (d : Circuit) :
    Prop extends s.Sound lib lost loose where
  aligned : lib.IsAligned
  callable : lib.IsCallable
  stored : s.circuit? c = some d
  registers : Register.AreWritable d.registers
  plain : s.HasPlainGates c

/-- A name stands for the gate at a place: a call of it comes to the flattened gate. -/
def Store.IsCalled (lib : Library) (regs : List Register) (n : Nat) (gates : List GateDef) (s : Store)
    (i : InstructionId) (name : String) : Prop :=
  ∃ x zs, s.instruction? i = some x ∧ s.expand n (s.element i) = some zs ∧ x.CalledAs lib regs gates name zs

theorem Instruction.hasPlainName_composite (hop : x.operation = .composite name body inverted) (h : x.hasPlainName) :
    isPlainName name ∧ definitionName x name inverted ∉ Keyword.statements.map Keyword.text := by
  rw [hasPlainName, hop] at h
  obtain ⟨hplain, hfree⟩ := Bool.and_eq_true_iff.mp h
  refine ⟨hplain, fun hmem => ?_⟩
  rw [contains_iff_mem.mpr hmem] at hfree
  cases hfree

namespace Store

variable {s : Store}

theorem hasPlainGates_of_all (h : s.instructions.all Instruction.hasPlainName) (c : CircuitId) : s.HasPlainGates c :=
  fun _ x _ hx => Array.all_eq_true_iff_forall_mem.mp h x (Array.mem_of_getElem? hx)

/-- A gate with a body acts on qubits of the circuit. -/
theorem Sound.calls_of_within (h : s.Sound lib lost loose) (hd : s.circuit? c = some d) (hi : s.Within c i)
    (hx : s.instruction? i = some x) (hop : x.operation = .composite name body inverted) : x.Calls d.registers := by
  have hproper := h.proper i x (h.member_of_within hi).kept hx
  rw [Instruction.IsProper, hop] at hproper
  refine (h.fits_of_within hd hi hx).calls (by rw [Instruction.isMeasure, hop]) fun hnil => hproper ?_
  exact (append_eq_nil_iff.mp hnil).2

theorem IsDeclarable.isLine (h : s.IsDeclarable lib lost loose c d) (hi : s.Within c i)
    (hx : s.instruction? i = some x) (hleaf : x.isComposite = false) : x.IsLine lib d.registers :=
  isLine_of_within h.aligned h.toSound h.stored hi hx hleaf

end Store

namespace Store.IsDeclarable

variable {s : Store} {gate : Instruction} {n : Nat} {table : List GateDef} {m : Node}

section

variable (h : s.IsDeclarable lib lost loose c d)

include h

section

variable (htable : GateDef.AreInOrder lib table)

include htable

/-- A statement in a body stands for what it was made from, if the calls of gates with a body do. -/
theorem speaksIn
    (hgate : gate.Calls d.registers) (hi : s.Within c i) (hx : s.instruction? i = some x) {called : String → Prop}
    (hcalled : ∀ name, called name → s.IsCalled lib d.registers n table i name) (hm : x.IsStated lib called gate m) :
    ∃ part, s.expand n (s.element i) = some part ∧
      m.SpeaksIn lib d.registers table (formalArgs gate) gate.allBits part ∧
      ∀ z ∈ part, z.isBarrier = false → z.condition = gate.condition := by
  obtain ⟨hcondition, operands, hoperands, hm⟩ := hm
  have hformals : (formalArgs gate).AreFor d.registers gate.allBits x operands :=
    ⟨hoperands, hgate.qubits, formalArgs_names hgate.distinct⟩
  have hleaf : x.isComposite = false → s.expand n (s.element i) = some [x] := fun hleaf => by
    rw [element_of_leaf hx hleaf, expand_leaf]
  cases hop : x.operation with
  | barrier =>
    rw [hop] at hm
    have hcomposite : x.isComposite = false := by rw [Instruction.isComposite, hop]
    exact ⟨[x], hleaf hcomposite, hm ▸ .barrier (h.isLine hi hx hcomposite) hop hformals,
      forall_mem_singleton.mpr hcondition⟩
  | measure =>
    rw [hop] at hm
    exact hm.elim
  | atomic f =>
    rw [hop] at hm
    have hcomposite : x.isComposite = false := by rw [Instruction.isComposite, hop]
    have hcalls := (h.isLine hi hx hcomposite).calledAs h.regular h.callable htable.own hop
    exact ⟨[x], hleaf hcomposite, hm ▸ .call hcalls hformals, forall_mem_singleton.mpr hcondition⟩
  | composite base body inverted =>
    rw [hop] at hm
    obtain ⟨name, hname, rfl⟩ := hm
    obtain ⟨y, zs, hy, hexpand, hzs⟩ := hcalled name hname
    cases hx.symm.trans hy
    have hbarrier : x.isBarrier = false := by rw [Instruction.isBarrier, hop]
    exact ⟨zs, hexpand, .call hzs hformals, fun z hz hz' => (hzs.conditions z hz hz').trans (hcondition hbarrier)⟩

/-- The statements of a declaration stand for what is in the body. -/
theorem declares (hi : s.Within c i) (hx : s.instruction? i = some x)
    (hop : x.operation = .composite base body inverted) {called : InstructionId → String → Prop}
    (hcalled : ∀ j, s.Within c j → ∀ name, called j name → s.IsCalled lib d.registers n table j name)
    (hbody : Forall₂ (fun j m => ∃ y, s.instruction? j = some y ∧ y.IsStated lib (called j) x m) body statements) :
    ∃ parts, Forall₂ (fun j part => s.expand n (s.element j) = some part) body parts ∧
      x.Declares lib d.registers table statements parts := by
  have hcalls := h.toSound.calls_of_within h.stored hi hx hop
  have hinside : ∀ j ∈ body, s.Within c j := fun j hj =>
    hi.inside ⟨x, hx, by rw [Instruction.inside, hop]; exact hj⟩
  clear hop
  induction hbody with
  | nil => exact ⟨[], .nil, hcalls, .nil, forall_mem_nil _⟩
  | cons hfirst _ ih =>
    rw [forall_mem_cons] at hinside
    obtain ⟨y, hy, hm⟩ := hfirst
    obtain ⟨part, hpart, hspeaks, hcondition⟩ := h.speaksIn htable hcalls hinside.1 hy (hcalled _ hinside.1) hm
    obtain ⟨parts, hparts, hdeclares⟩ := ih hinside.2
    refine ⟨part :: parts, .cons hpart hparts, hcalls, .cons hspeaks hdeclares.statements, ?_⟩
    rw [flatten_cons, forall_mem_append]
    exact ⟨hcondition, hdeclares.conditions⟩

/-- The name of a gate stands for the flattened gate. -/
theorem isCalled (hi : s.Within c i)
    (hname : s.IsDeclared lib table n i name) : s.IsCalled lib d.registers n table i name := by
  induction n generalizing i name with
  | zero => exact hname.elim
  | succ n ih =>
    obtain ⟨f, -, hf, rfl, ⟨x, base, body, inverted, statements, k, hx, hop, rfl, hbody⟩, hsame⟩ := hname
    obtain ⟨hplain, hfree⟩ := Instruction.hasPlainName_composite hop (h.plain i x hi hx)
    obtain ⟨hplain, hword⟩ := isName_candidateName (isPlainName_definitionName hplain x inverted) hfree k
    obtain ⟨parts, hparts, hdeclares⟩ := h.declares htable hi hx hop (fun j hj _ => ih hj) hbody
    have hcanonical : f.canonical = (Action.declarationOf x (formalArgs x) statements
        (candidateName (definitionName x base inverted) k)).canonical := by
      rcases hsame with rfl | ⟨text, hold, hnew⟩
      · rfl
      · -- Both declarations have one text, and it can be read in one way only.
        obtain ⟨before, after, -, hfollows⟩ := htable.exists_follows (mem_of_find?_eq_some hf)
        obtain ⟨_, hold'⟩ := hfollows.body text hold
        obtain ⟨_, hnew'⟩ := hdeclares.exists_bodyRestates h.registers hnew
        exact GateDef.canonical_eq_of_render hfollows.named (hdeclares.calls.isNamed hword.1 _) hold' hnew'
          (hold.trans hnew.symm)
    refine ⟨x, parts.flatten, hx, ?_, hdeclares.calledAs h.registers htable hplain hword hf hcanonical⟩
    rw [element_of_composite hx hop, expand_gate (face_of_composite hx hop)]
    exact expandAll_eq_some.mpr ⟨parts, forall₂_map_left_iff.mpr hparts, rfl⟩

end

/-- The declarations of gates with plain names can be read back. -/
theorem yields : s.Yields c lib (GateDef.Follows lib) := by
  rintro n i g table hi htable ⟨x, base, body, inverted, statements, k, hx, hop, rfl, hbody⟩ hnone - hfree
  obtain ⟨hplain, hkeyword⟩ := Instruction.hasPlainName_composite hop (h.plain i x hi hx)
  obtain ⟨-, hword⟩ := isName_candidateName (isPlainName_definitionName hplain x inverted) hkeyword k
  obtain ⟨parts, -, hdeclares⟩ := h.declares htable hi hx hop (fun j hj _ => h.isCalled htable hj) hbody
  exact hdeclares.follows h.registers hword hnone hfree

end

end Store.IsDeclarable

end QasmCircuit
