import QasmCircuit.Proofs.Circuit.Declared
import QasmCircuit.Proofs.Circuit.Failure

/-!
# Which gates a program declares

While the gates of a circuit are declared, declarations are put behind those that are there, and none is changed. A new
one is the one that its gate asks for (`Store.Declaration`): it calls gates of the library and gates that were declared
before it, on its own formal arguments. So what holds of such a declaration, behind those before it, holds of all tables
(`Action.adds_declare`). This is so with any library, and for any names of gates.

> `Action.toProgram_isTable`: the declarations of the program of a circuit.
-/

namespace QasmCircuit

open Outcome List

variable {lib : Library} {gate x : Instruction} {s : Store} {table table' : List GateDef} {i : InstructionId}
  {n : Nat} {name : String} {libs : Set Library} {lost : Set InstructionId} {c : CircuitId} {d : Circuit}
  {f : Family}

/-! ## What is declared -/

/-- A gate is declared under a new name, or it has the text of a declared gate of that name. -/
theorem settleName_eq_ok {base : String} {declaration : String → GateDef}
    {attempts : List Nat} (h : settleName lib base declaration table attempts = .ok (name, table')) :
    (∃ k ∈ attempts, name = candidateName base k) ∧
      ((table' = table ∧ ∃ g text, findGate? table name = some g ∧ g.render = .ok text ∧
          (declaration name).render = .ok text) ∨
        (findGate? table name = none ∧ name ∉ standardGates ∧ lib.contains name = false ∧
          table' = table ++ [declaration name])) := by
  induction attempts with
  | nil => cases h
  | cons k rest ih =>
    have hlater := fun h => (ih h).imp_left fun h => h.imp fun _ h => h.imp_left (mem_cons_of_mem k)
    rw [settleName] at h
    cases hfind : findGate? table (candidateName base k) with
    | some g =>
      rw [hfind] at h
      obtain ⟨old, hold, h⟩ := bind_eq_ok.mp h
      obtain ⟨new, hnew, h⟩ := bind_eq_ok.mp h
      by_cases hsame : old = new
      · rw [if_pos hsame] at h
        obtain ⟨rfl, rfl⟩ := Prod.mk.inj (Except.ok.inj h)
        exact ⟨⟨k, mem_cons_self, rfl⟩, .inl ⟨rfl, g, old, hfind, hold, hsame ▸ hnew⟩⟩
      · rw [if_neg hsame] at h
        exact hlater h
    | none =>
      rw [hfind] at h
      dsimp only at h
      by_cases htaken : (standardGates.contains (candidateName base k) || lib.contains (candidateName base k))
      · rw [if_pos htaken] at h
        exact hlater h
      · rw [if_neg htaken] at h
        obtain ⟨rfl, rfl⟩ := Prod.mk.inj (Except.ok.inj h)
        rw [Bool.not_eq_true, Bool.or_eq_false_iff] at htaken
        exact ⟨⟨k, mem_cons_self, rfl⟩, .inr ⟨hfind,
          fun h => absurd (contains_iff_mem.mpr h) (Bool.not_eq_true _ ▸ htaken.1), htaken.2, rfl⟩⟩

theorem FormalArgs.subset_of_forall₂ {formals : FormalArgs} {bits : List Bit} {names : List String}
    (h : Forall₂ (fun b a => formals.nameOf? b = some a) bits names) : names ⊆ formals.map (·.2) := by
  intro a ha
  obtain ⟨b, -, hb⟩ := exists_of_forall₂ h a ha
  exact mem_of_nameOf? hb

/-- A statement in the body of a gate is the one of an instruction. A gate of the library is called by its form with all
controls, and a gate with a body by a name that it is declared under; neither has a condition of its own. -/
def Instruction.IsStated (lib : Library) (called : String → Prop) (x gate : Instruction) (n : Node) : Prop :=
  (x.isBarrier = false → x.condition = gate.condition) ∧
    ∃ operands, Forall₂ (fun b a => (formalArgs gate).nameOf? b = some a) x.allBits operands ∧
    match x.operation with
    | .barrier => n = .barrier .origin ((operands.map formalRef).map .ref)
    | .measure => False
    | .atomic _ => n = .call (x.writtenAs lib) .origin (paramTerms x.params) ((operands.map formalRef).map .ref) none
    | .composite _ _ _ => ∃ name, called name ∧
        n = .call name .origin (paramTerms x.params) ((operands.map formalRef).map .ref) none

/-- A declaration of a gate with a body, with a statement for each member of the body. -/
def Store.Declaration (s : Store) (lib : Library) (called : InstructionId → String → Prop) (i : InstructionId)
    (g : GateDef) : Prop :=
  ∃ x base body inverted statements k, s.instruction? i = some x ∧ x.operation = .composite base body inverted ∧
    g = Action.declarationOf x (formalArgs x) statements (candidateName (definitionName x base inverted) k) ∧
    Forall₂ (fun j n => ∃ y, s.instruction? j = some y ∧ y.IsStated lib (called j) x n) body statements

/-- A name of a table stands for a declaration of a gate with a body, or for one with the same text. The gates in its
body are declared in turn, to a number of levels. -/
def Store.IsDeclared (s : Store) (lib : Library) (table : List GateDef) : Nat → InstructionId → String → Prop
  | 0, _, _ => False
  | n + 1, i, name => ∃ f g, findGate? table name = some f ∧ g.name = name ∧
      s.Declaration lib (s.IsDeclared lib table n) i g ∧ (f = g ∨ ∃ text, f.render = .ok text ∧ g.render = .ok text)

section

variable {called called' : String → Prop} {m : Node}

theorem Instruction.IsStated.imp (h : x.IsStated lib called gate m) (hcalled : ∀ name, called name → called' name) :
    x.IsStated lib called' gate m := by
  obtain ⟨hcondition, operands, hoperands, hm⟩ := h
  refine ⟨hcondition, operands, hoperands, ?_⟩
  cases hop : x.operation with
  | composite base body inverted =>
    rw [hop] at hm
    exact hm.imp fun name h => h.imp_left (hcalled name)
  | _ =>
    rw [hop] at hm
    exact hm

theorem Store.Declaration.imp {called called' : InstructionId → String → Prop} {g : GateDef}
    (h : s.Declaration lib called i g) (hcalled : ∀ j name, called j name → called' j name) :
    s.Declaration lib called' i g := by
  obtain ⟨x, base, body, inverted, statements, k, hx, hop, hg, hbody⟩ := h
  refine ⟨x, base, body, inverted, statements, k, hx, hop, hg, hbody.imp fun j n hn => ?_⟩
  exact hn.imp fun y hy => hy.imp_right fun h => h.imp (hcalled j)

theorem Store.IsDeclared.mem (h : s.IsDeclared lib table n i name) : name ∈ table.map GateDef.name := by
  cases n with
  | zero => exact h.elim
  | succ n =>
    obtain ⟨f, -, hf, -⟩ := h
    exact mem_map.mpr ⟨f, mem_of_find?_eq_some hf, Program.findGate?_name hf⟩

/-- What is declared stays so while the table grows. -/
theorem Store.IsDeclared.mono (h : s.IsDeclared lib table n i name) (hgrows : table <+: table') :
    s.IsDeclared lib table' n i name := by
  obtain ⟨more, rfl⟩ := hgrows
  induction n generalizing i name with
  | zero => exact h
  | succ n ih =>
    obtain ⟨f, g, hf, hname, hg, hsame⟩ := h
    exact ⟨f, g, Program.findGate?_append hf, hname, hg.imp fun _ _ => ih, hsame⟩

/-- A statement of a program is that of an instruction. A gate with a body is called by a name that its declaration
stands under. -/
def Store.IsNoted (s : Store) (lib : Library) (table : List GateDef) (i : InstructionId) (m : Node) : Prop :=
  ∃ x, s.instruction? i = some x ∧ if x.isComposite then
    ∃ name, m = callNode name x ∧ s.IsDeclared lib table (s.instructions.size + 1) i name
  else x.statement? lib = some m

theorem Store.IsNoted.mono (h : s.IsNoted lib table i m) (hgrows : table <+: table') : s.IsNoted lib table' i m := by
  obtain ⟨x, hx, hm⟩ := h
  refine ⟨x, hx, ?_⟩
  split
  · next hcomposite =>
    rw [hcomposite] at hm
    exact hm.imp fun name h => h.imp_right fun h => h.mono hgrows
  · next hleaf => rwa [if_neg hleaf] at hm

end

/-! ## Steps -/

namespace GateDef

/-- Every declaration of a table satisfies `P` behind those before it. -/
def Each (P : List GateDef → GateDef → Prop) (gates : List GateDef) : Prop :=
  ∀ before g after, gates = before ++ g :: after → P before g

/-- Declarations were put behind those of a table, and all of them satisfy `P`. -/
structure Adds (P : List GateDef → GateDef → Prop) (table table' : List GateDef) : Prop where
  kept : table <+: table'
  each : Each P table'

variable {P : List GateDef → GateDef → Prop} {table'' : List GateDef}

theorem each_nil (P : List GateDef → GateDef → Prop) : Each P [] := fun _ _ _ hsplit => absurd hsplit (by simp)

theorem Adds.refl (h : Each P table) : Adds P table table := ⟨prefix_rfl, h⟩

theorem Adds.trans (h : Adds P table table') (h' : Adds P table' table'') : Adds P table table'' :=
  ⟨h.kept.trans h'.kept, h'.each⟩

end GateDef

/-- Whatever is declared for the gates of a circuit, under a name that is free, satisfies `P`. -/
def Store.Yields (s : Store) (c : CircuitId) (lib : Library) (P : List GateDef → GateDef → Prop) : Prop :=
  ∀ n i g table, s.Within c i → GateDef.Each P table → s.Declaration lib (s.IsDeclared lib table n) i g →
    findGate? table g.name = none → g.name ∉ standardGates → lib.contains g.name = false → P table g

namespace Action

open Store

variable {loose : Set InstructionId} {is : List InstructionId} {P : List GateDef → GateDef → Prop}
  {nested : InstructionId → List GateDef → Action (String × List GateDef)}

theorem reads_writtenName (hlib : ∀ d, s.circuit? x.circuit = some d → d.library = lib)
    (hop : x.operation = .atomic f) : (writtenName x f).Reads s fun name => name = x.writtenAs lib := by
  refine reads_circuit.bind fun d hd => reads_lift.bind fun g hg => reads_pure ?_
  rw [controlledFamily_eq_ok, hlib d hd] at hg
  exact (Instruction.writtenAs_of_controlledBy hop hg).symm

theorem reads_toNode (hlib : ∀ d, s.circuit? x.circuit = some d → d.library = lib) (hx : s.instruction? i = some x)
    (hleaf : x.isComposite = false) : (toNode i).Reads s fun n => x.statement? lib = some n := by
  refine reads_instruction.bind fun y hy => ?_
  cases hx.symm.trans hy
  unfold Instruction.statement?
  split
  · next f _ hop =>
    refine (reads_writtenName hlib hop).bind fun name hname => reads_pure ?_
    rw [hop, hname]
  · next hop => exact reads_pure (by rw [hop])
  · next q b hop hargs => exact reads_pure (by rw [hop, hargs])
  · exact reads_throw
  · next hop => exact absurd_leaf hleaf hop

section

variable (hs : s.Orderly libs lost loose) (hd : s.circuit? c = some d)
include hs hd

theorem library_of_within (hi : s.Within c i) (hx : s.instruction? i = some x) :
    ∀ d', s.circuit? x.circuit = some d' → d'.library = d.library := by
  obtain ⟨y, hy, rfl, -⟩ := (hs.member_of_within hi).fits
  cases hx.symm.trans hy
  exact fun d' hd' => congrArg Circuit.library (Option.some.inj (hd'.symm.trans hd))

theorem adds_declareElement (hi : s.Within c i) (hx : s.instruction? i = some x) (htable : GateDef.Each P table)
    {operands : List String} (hoperands : Forall₂ (fun b a => (formalArgs gate).nameOf? b = some a) x.allBits operands)
    (hnested : (nested i table).Reads s fun r => GateDef.Adds P table r.2 ∧ s.IsDeclared d.library r.2 n i r.1) :
    (declareElement nested gate i x ((operands.map formalRef).map .ref) table).Reads s fun r =>
      GateDef.Adds P table r.2 ∧ x.IsStated d.library (s.IsDeclared d.library r.2 n i) gate r.1 := by
  unfold declareElement
  cases hop : x.operation with
  | barrier =>
    refine reads_pure ⟨.refl htable, fun hbarrier => ?_, operands, hoperands, by rw [hop]⟩
    rw [Instruction.isBarrier, hop] at hbarrier
    cases hbarrier
  | measure => exact reads_throw
  | atomic f =>
    refine reads_ite (fun _ => reads_fail_bind) fun hcondition => ?_
    refine (reads_writtenName (library_of_within hs hd hi hx) hop).bind fun name hname => ?_
    exact reads_pure ⟨.refl htable, fun _ => not_not.mp hcondition, operands, hoperands, by rw [hop, hname]⟩
  | composite base body inverted =>
    refine reads_ite (fun _ => reads_fail_bind) fun hcondition => hnested.bind fun r hr => ?_
    exact reads_pure ⟨hr.1, fun _ => not_not.mp hcondition, operands, hoperands, by rw [hop]; exact ⟨r.1, hr.2, rfl⟩⟩

/-- All elements of a body, one after the other. -/
theorem adds_declareBody (his : ∀ i ∈ is, s.Within c i) (htable : GateDef.Each P table)
    (hnested : ∀ i ∈ is, ∀ table, GateDef.Each P table →
      (nested i table).Reads s fun r => GateDef.Adds P table r.2 ∧ s.IsDeclared d.library r.2 n i r.1) :
    (declareBody nested gate (formalArgs gate) is table).Reads s fun r => GateDef.Adds P table r.2 ∧
      Forall₂ (fun j m => ∃ y, s.instruction? j = some y ∧
        y.IsStated d.library (s.IsDeclared d.library r.2 n j) gate m) is r.1 := by
  induction is generalizing table with
  | nil => exact reads_pure ⟨.refl htable, .nil⟩
  | cons i rest ih =>
    rw [forall_mem_cons] at his hnested
    refine reads_instruction.bind fun x hx => reads_lift.bind fun _ hterms => ?_
    obtain ⟨operands, hoperands, rfl⟩ := formalOperands_eq_ok hterms
    refine (adds_declareElement hs hd his.1 hx htable hoperands (hnested.1 table htable)).bind fun r hr => ?_
    refine (ih his.2 hr.1.each hnested.2).bind fun r' hr' => reads_pure ⟨hr.1.trans hr'.1, ?_⟩
    exact .cons ⟨x, hx, hr.2.imp fun _ h => h.mono hr'.1.kept⟩ hr'.2

/-- A gate is declared behind the gates that it calls, or as one of those that are there. -/
theorem adds_declare (hP : s.Yields c d.library P) (n : Nat) (hi : s.Within c i) (htable : GateDef.Each P table) :
    (declare n i table).Reads s fun r => GateDef.Adds P table r.2 ∧ s.IsDeclared d.library r.2 n i r.1 := by
  induction n generalizing i table with
  | zero => exact reads_throw
  | succ n ih =>
    refine reads_instruction.bind fun x hx => ?_
    cases hop : x.operation with
    | composite base body inverted =>
      have hinside : ∀ j ∈ body, s.Within c j := fun j hj =>
        hi.inside ⟨x, hx, by rw [Instruction.inside, hop]; exact hj⟩
      refine (adds_declareBody hs hd hinside htable fun j hj table htable => ih (hinside j hj) htable).bind
        fun r hr => reads_circuit.bind fun d' hd' => reads_lift.imp fun r' hr' => ?_
      rw [library_of_within hs hd hi hx d' hd'] at hr'
      obtain ⟨⟨k, -, hk⟩, hsettled⟩ := settleName_eq_ok hr'
      have hdeclaration : s.Declaration d.library (s.IsDeclared d.library r.2 n) i
          (declarationOf x (formalArgs x) r.1 r'.1) := ⟨x, base, body, inverted, r.1, k, hx, hop, hk ▸ rfl, hr.2⟩
      rcases hsettled with ⟨hsame, f, text, hf, hold, hnew⟩ | ⟨hnone, hstandard, hfree, hadded⟩
      · rw [hsame]
        exact ⟨hr.1, f, _, hf, rfl, hdeclaration, .inr ⟨text, hold, hnew⟩⟩
      · have hgrows : r.2 <+: r'.2 := hadded ▸ prefix_append _ _
        have heach : GateDef.Each P r'.2 := hadded ▸
          Program.forall_split_snoc hr.1.each (hP n i _ _ hi hr.1.each hdeclaration hnone hstandard hfree)
        refine ⟨hr.1.trans ⟨hgrows, heach⟩, _, _, ?_, rfl, hdeclaration.imp fun _ _ h => h.mono hgrows, .inl rfl⟩
        unfold findGate? at hnone ⊢
        rw [hadded, find?_append, hnone, Option.none_or, find?_singleton]
        exact if_pos (beq_self_eq_true _)
    | _ => exact reads_throw

/-- The statements of a circuit, with the gates that they need. -/
theorem adds_programBody (hP : s.Yields c d.library P) (his : ∀ i ∈ is, s.Within c i) (htable : GateDef.Each P table) :
    (programBody is table).Reads s fun r => GateDef.Adds P table r.2 ∧ Forall₂ (s.IsNoted d.library r.2) is r.1 := by
  induction is generalizing table with
  | nil => exact reads_pure ⟨.refl htable, .nil⟩
  | cons i rest ih =>
    rw [forall_mem_cons] at his
    have hfirst : (programStatement i table).Reads s fun r => GateDef.Adds P table r.2 ∧
      s.IsNoted d.library r.2 i r.1 := by
      refine reads_instruction.bind fun x hx => ?_
      have hleaf : x.isComposite = false → (do pure (← toNode i, table) : Action (Node × List GateDef)).Reads s fun r =>
          GateDef.Adds P table r.2 ∧ s.IsNoted d.library r.2 i r.1 := by
        intro hleaf
        refine (reads_toNode (library_of_within hs hd his.1 hx) hx hleaf).bind fun m hm => ?_
        exact reads_pure ⟨.refl htable, x, hx, by rw [hleaf]; exact hm⟩
      cases hop : x.operation with
      | composite name body inverted =>
        refine reads_depth.bind fun n hn => (adds_declare hs hd hP n his.1 htable).bind fun r hr => reads_pure
          ⟨hr.1, x, hx, ?_⟩
        rw [Instruction.isComposite, hop]
        exact ⟨r.1, rfl, hn ▸ hr.2⟩
      | _ => exact hleaf (by rw [Instruction.isComposite, hop])
    refine hfirst.bind fun r hr => (ih his.2 hr.1.each).bind fun r' hr' => ?_
    exact reads_pure ⟨hr.1.trans hr'.1, .cons (hr.2.mono hr'.1.kept) hr'.2⟩

end

end Action

/-! ## The declarations of a program -/

/-- A barrier, or a call of a gate of a library or of a gate with one of some names, on formal arguments. -/
def Node.IsWithin (lib : Library) (names formals : List String) (n : Node) : Prop :=
  ∃ operands ⊆ formals, n = .barrier .origin ((operands.map formalRef).map .ref) ∨
    ∃ name params, n = .call name .origin params ((operands.map formalRef).map .ref) none ∧
      (lib.contains name ∨ name ∈ names)

/-- A declaration that can stand behind some others: its name is new, and it calls only what is there. -/
structure GateDef.Succeeds (lib : Library) (before : List GateDef) (g : GateDef) : Prop where
  own : lib.contains g.name = false
  free : g.name ∉ standardGates
  fresh : g.name ∉ before.map GateDef.name
  body : ∀ n ∈ g.body, n.IsWithin lib (before.map GateDef.name) g.args

theorem GateDef.nodup_names {gates : List GateDef} (h : Each (Succeeds lib) gates) :
    (gates.map GateDef.name).Nodup := by
  induction gates using List.reverseRecOn with
  | nil => exact nodup_nil
  | append_singleton gates g ih =>
    rw [map_append, nodup_append_comm]
    refine nodup_cons.mpr ⟨(h gates g [] rfl).fresh, ih fun before f after hsplit => ?_⟩
    exact h before f (after ++ [g]) (by rw [hsplit, append_assoc, cons_append])

theorem Library.contains_of_controlledBy {g : Family} (hf : lib.find? f.name = some f)
    (h : lib.controlledBy n f = some g) : lib.contains g.name := by
  induction n generalizing f with
  | zero =>
    cases h
    rw [contains, hf]
    rfl
  | succ n ih =>
    obtain ⟨name, -, hrest⟩ := Option.bind_eq_some_iff.mp h
    obtain ⟨k, hk, hlast⟩ := Option.bind_eq_some_iff.mp hrest
    exact ih (find?_name hk) hlast

namespace Action

open Store

variable {t : Store} {handed : List InstructionId} {p : Program}

/-- What is declared for the gates of a circuit calls only what is there. -/
theorem yields_succeeds (hs : s.Orderly libs lost ∅) (hd : s.circuit? c = some d) :
    s.Yields c d.library (GateDef.Succeeds d.library) := by
  rintro n i g table hi - ⟨x, base, body, inverted, statements, k, hx, hop, rfl, hbody⟩ hnone hstandard hfree
  refine ⟨hfree, hstandard, fun hmem => ?_, fun m hm => ?_⟩
  · rw [← Program.isSome_findGate?, hnone] at hmem
    cases hmem
  · obtain ⟨j, hj, y, hy, -, operands, hoperands, hstated⟩ := exists_of_forall₂ hbody m hm
    refine ⟨operands, FormalArgs.subset_of_forall₂ hoperands, ?_⟩
    cases hkind : y.operation with
    | barrier =>
      rw [hkind] at hstated
      exact .inl hstated
    | measure =>
      rw [hkind] at hstated
      exact hstated.elim
    | atomic f =>
      rw [hkind] at hstated
      refine .inr ⟨_, _, hstated, .inl ?_⟩
      have hmember := hs.member_of_within (hi.inside ⟨x, hx, by rw [Instruction.inside, hop]; exact hj⟩)
      obtain ⟨z, hz, rfl, -⟩ := hmember.fits
      cases hy.symm.trans hz
      have hf := ((hs.formed j y hmember.kept hy).isNative hkind hd).1
      rw [Instruction.writtenAs, hkind]
      dsimp only
      cases hg : d.library.controlledBy y.controlBits.length f with
      | none => exact Library.contains_of_controlledBy (n := 0) hf rfl
      | some g => exact Library.contains_of_controlledBy hf hg
    | composite _ _ _ =>
      rw [hkind] at hstated
      obtain ⟨name, hname, hstated⟩ := hstated
      exact .inr ⟨_, _, hstated, .inr hname.mem⟩

/-- Where a circuit has a program, with any library, its declarations have different names, which are not names of the
library or of the standard include file. Each of them calls only gates of the library and gates that are declared before
it, on its formal arguments. A gate with a body is called by a name that its declaration stands under, and whenever one
is declared, the table grows at its end only. -/
theorem toProgram_isTable (hs : s.Arises libs handed) (hd : s.circuit? c = some d) (h : (toProgram c).Returns s p t) :
    (p.gates.map GateDef.name).Nodup ∧ GateDef.Each (GateDef.Succeeds d.library) p.gates ∧
      List.Forall₂ (fun i m => ∀ x, s.instruction? i = some x → x.isComposite = true → ∃ name, m = callNode name x ∧
        s.IsDeclared d.library p.gates (s.instructions.size + 1) i name) d.data p.body ∧
      ∀ n i table, s.Within c i → (declare n i table).Reads s fun r => table <+: r.2 := by
  obtain ⟨lost, horderly, -⟩ := hs.exists_orderly
  have hreads : (toProgram c).Reads s fun p => GateDef.Each (GateDef.Succeeds d.library) p.gates ∧
      List.Forall₂ (fun i m => ∀ x, s.instruction? i = some x → x.isComposite = true → ∃ name, m = callNode name x ∧
        s.IsDeclared d.library p.gates (s.instructions.size + 1) i name) d.data p.body := by
    refine reads_circuit.bind fun d' hd' => ?_
    obtain rfl := Option.some.inj (hd.symm.trans hd')
    refine (adds_programBody horderly hd (yields_succeeds horderly hd) (fun i hi => .data hd hi)
      (GateDef.each_nil _)).bind fun r hr => reads_pure ⟨hr.1.each, hr.2.imp fun i m hm x hx hcomposite => ?_⟩
    obtain ⟨y, hy, hm⟩ := hm
    obtain rfl := Option.some.inj (hx.symm.trans hy)
    rw [hcomposite] at hm
    exact hm
  obtain ⟨-, heach, hbody⟩ := h.ends.mp hreads
  refine ⟨GateDef.nodup_names heach, heach, hbody, fun n i table hi => ?_⟩
  exact (adds_declare (P := fun _ _ => True) horderly hd (fun _ _ _ _ _ _ _ _ _ _ => trivial) n hi
    fun _ _ _ _ => trivial).imp fun r hr => hr.1.kept

/-- A gate that another one calls is declared before it. -/
theorem toProgram_isTable_nested :
    let s := (Call.nestedCalls.foldl (Store.next Call.danglingLibrary) ({}, [])).1
    ∃ p t, (toProgram 0).Returns s p t ∧ p.gates.map GateDef.name = ["g", "f"] ∧
      GateDef.Each (GateDef.Succeeds Call.danglingLibrary) p.gates := by
  have hreach := Store.reachable_foldl Call.danglingLibrary Call.nestedCalls (by decide +kernel)
  have hnames : ((toProgram 0).outcome (Call.nestedCalls.foldl (Store.next Call.danglingLibrary) ({}, [])).1
    ).1.toOption.map (fun p => p.gates.map GateDef.name) = some ["g", "f"] := by decide +kernel
  have hlib : ((Call.nestedCalls.foldl (Store.next Call.danglingLibrary) ({}, [])).1.circuit? 0).map Circuit.library =
    some Call.danglingLibrary := by decide +kernel
  generalize Call.nestedCalls.foldl (Store.next Call.danglingLibrary) ({}, []) = q at *
  obtain ⟨p, hp, hnames⟩ := Option.map_eq_some_iff.mp hnames
  obtain ⟨d, hd, hlib⟩ := Option.map_eq_some_iff.mp hlib
  have hreturns := returns_of_toOption hp
  exact ⟨p, _, hreturns, hnames, hlib ▸ (toProgram_isTable hreach.arises hd hreturns).2.1⟩

end Action

end QasmCircuit
