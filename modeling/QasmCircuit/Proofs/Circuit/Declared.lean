import QasmCircuit.Proofs.Circuit.Formals
import QasmCircuit.Proofs.Circuit.ReadBack
import QasmCircuit.Proofs.Program.Injective

/-!
# Tables of declared gates

A gate with a body is declared behind the gates that it calls. A table of such declarations can be read back
(`GateDef.AreInOrder.areReadable`), and what a name in it stands for stays the same while the table grows
(`GateDef.AreInOrder.expansion?_append`). A statement in a body stands for instructions on the bits of the gate,
wherever these are (`Node.StandsIn`).
-/

namespace QasmCircuit

open Outcome Source List
open Register (sorted AreWritable)
open Program (GateScope)

variable {lib : Library} {gates : List GateDef} {name : String} {e : Effect} {p : Program}

/-! ## Tables -/

/-- A declaration that can follow some others: it has a new name, and calls gates of the library and the gates before it
with numbers as parameters. -/
structure GateDef.Follows (lib : Library) (before : List GateDef) (g : GateDef) : Prop where
  named : g.IsNamed
  fresh : Program.IsFresh lib before g.name
  numeric : g.IsNumeric
  body : ∀ text, g.render = .ok text → ∃ body, BodyRestates lib before g.scope Context.body.keywords body g.body
  known : ∀ n ∈ g.body, ∀ e ∈ n.canonical.effect?, e.IsKnown lib before
  suits : ∀ n ∈ g.body, ∀ e ∈ n.canonical.effect?, e.Suits lib (before.map GateDef.canonical) []

/-- Declarations of which each can follow those before it. -/
def GateDef.AreInOrder (lib : Library) (gates : List GateDef) : Prop :=
  ∀ before g after, gates = before ++ g :: after → g.Follows lib before

namespace GateDef

variable {more : List GateDef} {g : GateDef}

theorem AreInOrder.exists_follows (h : AreInOrder lib gates) (hg : g ∈ gates) :
    ∃ before after, gates = before ++ g :: after ∧ g.Follows lib before := by
  obtain ⟨before, after, hsplit⟩ := append_of_mem hg
  exact ⟨before, after, hsplit, h before g after hsplit⟩

theorem AreInOrder.own (h : AreInOrder lib gates) : ∀ g ∈ gates, lib.contains g.name = false := by
  intro g hg
  obtain ⟨before, after, -, hfollows⟩ := h.exists_follows hg
  exact hfollows.fresh.2.1

section

variable (h : AreInOrder lib (gates ++ more))

include h

section

variable (hname : IsKnown lib gates name)

include hname

/-- Later declarations do not take the names of gates that are known already. -/
theorem AreInOrder.name_ne : ∀ f ∈ more, f.name ≠ name := by
  rintro f hf rfl
  obtain ⟨between, rest, rfl⟩ := append_of_mem hf
  obtain ⟨hnone, hfree, -⟩ := (h (gates ++ between) f rest (append_assoc ..).symm).fresh
  rcases hname with hname | hname
  · rw [hfree] at hname
    cases hname
  · obtain ⟨g, hg⟩ := Option.isSome_iff_exists.mp hname
    rw [Program.findGate?_append hg] at hnone
    cases hnone

theorem AreInOrder.findGate?_of_known : findGate? (gates ++ more) name = findGate? gates name := by
  have hnone : findGate? more name = none := Program.findGate?_eq_none (h.name_ne hname)
  unfold findGate? at hnone ⊢
  rw [find?_append, hnone, Option.or_none]

theorem AreInOrder.takes_append
    {params operands : Nat} (htakes : Takes lib (gates.map canonical) name params operands) :
    Takes lib ((gates ++ more).map canonical) name params operands := by
  unfold Takes at htakes ⊢
  rw [@findGate?_map canonical fun _ => rfl] at htakes ⊢
  rw [h.findGate?_of_known hname]
  exact htakes

end

theorem AreInOrder.suits_append (hknown : e.IsKnown lib gates)
    {regs : List (String × Int)} (hsuits : e.Suits lib (gates.map canonical) regs) :
    e.Suits lib ((gates ++ more).map canonical) regs := by
  cases e with
  | apply name params targets => exact ⟨h.takes_append hknown hsuits.1, hsuits.2⟩
  | _ => trivial

end

theorem AreInOrder.areReadable (h : AreInOrder lib gates) : AreReadable lib gates := by
  refine ⟨h.own, fun before g after hsplit text htext => ?_, fun g hg => ?_, fun g hg n hn e he => ?_⟩
  · have hfollows := h before g after hsplit
    obtain ⟨body, hbody⟩ := hfollows.body text htext
    exact ⟨_, restates hfollows.named hfollows.fresh hbody⟩
  · obtain ⟨before, after, -, hfollows⟩ := h.exists_follows hg
    exact hfollows.numeric
  · obtain ⟨before, after, rfl, hfollows⟩ := h.exists_follows hg
    exact h.suits_append (hfollows.known n hn e he) (hfollows.suits n hn e he)

variable {home : CircuitId}

/-- What a name stands for stays the same while the table grows. -/
theorem AreInOrder.expansion?_append (h : AreInOrder lib (gates ++ more)) (hname : IsKnown lib gates name) :
    Program.expansion? lib home ((gates ++ more).map canonical).reverse name =
      Program.expansion? lib home (gates.map canonical).reverse name := by
  rw [map_append, reverse_append]
  refine Program.expansion?_of_forall_ne (fun f hf => ?_) _
  obtain ⟨f', hf', rfl⟩ := mem_map.mp (mem_reverse.mp hf)
  exact h.name_ne hname f' hf'

theorem inside?_congr {call call' : String → List Float → List Bit → Option (List Instruction)} {env : Tree.Env}
    {formals : List (String × Bit)}
    (h : ∀ name params targets, e = .apply name params targets → call name = call' name) :
    e.inside? home call env formals = e.inside? home call' env formals := by
  cases e with
  | apply name params targets => rw [Effect.inside?, Effect.inside?, h name params targets rfl]
  | _ => rfl

/-- A call of a declared gate comes to what the statements of its body come to, by all that is declared. -/
theorem AreInOrder.expansion?_of_mem (h : AreInOrder lib gates) (hg : g ∈ gates) (hname : isIdentifier g.name)
    (values : List Float) (bits : List Bit) :
    Program.expansion? lib home (gates.map canonical).reverse g.name values bits =
      ((g.body.map Node.canonical).mapM fun n : Node => n.effect?.bind (Effect.inside? home
        (Program.expansion? lib home (gates.map canonical).reverse) (g.env values) (g.args.zip bits))).map
          List.flatten := by
  obtain ⟨before, after, rfl, hfollows⟩ := h.exists_follows hg
  have hknown : IsKnown lib (before ++ [g]) g.name := by
    refine .inr (Program.isSome_findGate?.mpr ?_)
    rw [map_append]
    exact mem_append_right _ mem_cons_self
  rw [append_cons] at h ⊢
  rw [h.expansion?_append hknown, map_append, reverse_append]
  show Program.expansion? lib home (g.canonical :: (before.map canonical).reverse) g.canonical.name values bits = _
  have hname' : isIdentifier g.canonical.name := hname
  rw [Program.expansion?, if_pos rfl, if_pos hname']
  -- A body calls what was declared before it, and for these names the whole table says the same.
  have hbody : ((g.body.map Node.canonical).mapM fun n : Node => n.effect?.bind (Effect.inside? home
      (Program.expansion? lib home (before.map canonical).reverse) (g.env values) (g.args.zip bits))) =
      (g.body.map Node.canonical).mapM fun n : Node => n.effect?.bind (Effect.inside? home
      (Program.expansion? lib home ((before ++ [g] ++ after).map canonical).reverse) (g.env values)
        (g.args.zip bits)) := by
    refine mapM_congr fun n hn => ?_
    obtain ⟨m, hm, rfl⟩ := mem_map.mp hn
    cases heffect : m.canonical.effect? with
    | none => rfl
    | some e =>
      rw [Option.bind_some, Option.bind_some]
      refine inside?_congr fun name params targets he => ?_
      have hknown := hfollows.known m hm e heffect
      rw [he] at hknown
      rw [append_assoc] at h ⊢
      exact (h.expansion?_append hknown).symm
  rw [← hbody, Option.map_eq_bind]
  rfl

end GateDef

/-! ## Statements of a body -/

/-- A statement in the body of a gate with some formal arguments stands for some instructions on the bits of the gate. -/
structure Node.StandsIn (lib : Library) (regs : List Register) (gates : List GateDef) (formals : FormalArgs)
    (bits : List Bit) (n : Node) (zs : List Instruction) : Prop where
  numeric : n.IsNumeric
  restates : ∀ (g : GateScope) (keywords : List Keyword), g.args = formals.map (·.2) → keywords ⊆ Keyword.statements →
    ∀ line, n.statementLine = .ok line → ∃ s : BodyStatement, s.Restates lib { gates := gates } g keywords n
  known : ∀ e ∈ n.canonical.effect?, e.IsKnown lib gates
  suits : ∀ e ∈ n.canonical.effect?, e.Suits lib (gates.map GateDef.canonical) []
  meaning : ∀ home env, n.canonical.effect?.bind (Effect.inside? home
    (Program.expansion? lib home (gates.map GateDef.canonical).reverse) env
    ((formals.map (·.2)).zip (bits.map (Bit.moved (sorted regs))))) =
      some (zs.map (Instruction.restated lib home (sorted regs)))

section

variable {regs : List Register} {formals : FormalArgs} {bits : List Bit} {x : Instruction} {names : List String}

theorem map_canonical_formalRef (names : List String) :
    ((names.map formalRef).map Term.ref).map Term.canonical = (names.map formalRef).map .ref := by
  rw [map_map, map_map, map_map]
  rfl

theorem mapM_target?_formalRef (names : List String) :
    ((names.map formalRef).map Term.ref).mapM Term.target? = some (names.map fun n => (n, none)) := by
  rw [mapM_eq_some, map_map, forall₂_map_left_iff, forall₂_map_right_iff, forall₂_same]
  exact fun _ _ => rfl

/-- The arguments of a gate are operands in its body. -/
theorem isOperand_formalRef {g : GateScope} (hwords : ∀ n ∈ g.args, Lexeme.isWord n)
    (hnames : names ⊆ g.args) : ∀ r ∈ names.map formalRef, r.IsOperand p (some g) .quantum := by
  intro r hr
  obtain ⟨n, hn, rfl⟩ := mem_map.mp hr
  refine ⟨rfl, ⟨hwords n (hnames hn), fun i hi => ?_⟩, hnames hn, rfl⟩
  cases hi

/-- Names of the bits of an instruction in the body of a gate on some bits. -/
structure FormalArgs.AreFor (formals : FormalArgs) (regs : List Register) (bits : List Bit) (x : Instruction)
    (names : List String) : Prop where
  names : Forall₂ (fun b n => formals.nameOf? b = some n) x.allBits names
  places : ∀ b ∈ bits, b.IsIn regs .quantum
  own : formals.Names bits

namespace FormalArgs.AreFor

section

variable (h : formals.AreFor regs bits x names)

include h

theorem isOperand {g : GateScope} (hg : g.args = formals.map (·.2)) : ∀ r ∈ names.map formalRef,
    r.IsOperand p (some g) .quantum := by
  refine isOperand_formalRef (fun n hn => ?_) fun n hn => ?_
  · rw [hg] at hn
    exact h.own.words n hn
  · obtain ⟨b, -, hb⟩ := exists_of_forall₂ h.names n hn
    rw [hg]
    exact FormalArgs.mem_of_nameOf? hb

theorem ne_nil (hx : x.Calls regs) : names.map formalRef ≠ [] := by
  rw [Ne, map_eq_nil_iff]
  rintro rfl
  exact hx.some_qubit (forall₂_nil_right_iff.mp h.names)

theorem distinct (hx : x.Calls regs) : Target.Distinct (names.map fun n => (n, none)) := by
  have hnodup := h.own.nodup_of_forall₂ h.names (Bit.distinct_iff.mp hx.distinct)
  refine ⟨hnodup.map fun _ _ heq => (Prod.mk.inj heq).1, fun _ _ b hb _ hsome => ?_⟩
  obtain ⟨n, -, rfl⟩ := mem_map.mp hb
  cases hsome

/-- The names stand for the bits, wherever these are. -/
theorem mapM_lookup (hregs : AreWritable regs) (hx : x.Calls regs) :
    (names.map fun n => ((n, none) : Target)).mapM (fun t => List.lookup t.1 ((formals.map (·.2)).zip
      (bits.map (Bit.moved (sorted regs))))) =
      some (x.allBits.map (Bit.moved (sorted regs))) := by
  have hsubset := hregs.perm_sorted.symm.subset
  rw [mapM_eq_some, forall₂_map_left_iff, forall₂_map_right_iff]
  refine (forall₂_imp_of_mem h.names fun b hb n hn => ?_).flip
  refine h.own.lookup_zip (fun a ha hkey => ?_) hn
  exact Bit.moved_eq_of_key hregs.nodup_sorted ((h.places a ha).mono hsubset) ((hx.qubits b hb).mono hsubset) hkey

end

end FormalArgs.AreFor

/-- The call of a name in a body stands for the instructions that it comes to. -/
theorem Instruction.CalledAs.standsIn {zs : List Instruction}
    (h : x.CalledAs lib regs gates name zs) (hregs : AreWritable regs)
    (hformals : formals.AreFor regs bits x names) :
    (Node.call name .origin (paramTerms x.params) ((names.map formalRef).map .ref) none).StandsIn lib regs gates
      formals bits zs := by
  have heffect : (Node.call name .origin (paramTerms x.params) ((names.map formalRef).map .ref)
    none).canonical.effect? =
      some (.apply name (paramTerms (x.params.map Decimal.plain)) (names.map fun n => (n, none))) := by
    rw [Node.canonical, Node.change, map_canonical_formalRef, map_canonical_paramTerms, Node.effect?,
      mapM_target?_formalRef]
    rfl
  have hlength : names.length = x.allBits.length := hformals.names.length_eq.symm
  refine ⟨isNumeric_paramTerms _, fun g keywords hg hkeywords line hline => ?_, fun e he => ?_, fun e he => ?_,
    fun home env => ?_⟩
  · obtain ⟨es, hes⟩ := exists_restates_paramTerms (some g) (Instruction.isFinite_of_statementLine hline)
    exact ⟨_, (@Operation.restates_call (some g) _ es lib { gates := gates } keywords _ .origin name
      (h.named.mono hkeywords) h.known hes (hformals.ne_nil h.calls) (hformals.isOperand hg)).bodyStatement⟩
  · cases heffect.symm.trans he
    exact h.known
  · cases heffect.symm.trans he
    refine ⟨?_, hformals.distinct h.calls, fun a _ b _ _ _ m _ hm => by cases hm⟩
    rw [paramTerms, length_map, length_map, length_map, hlength]
    exact h.takes
  · rw [heffect, Option.bind_some, Effect.inside?, mapM_resolve_paramTerms]
    exact Option.bind_eq_some_iff.mpr ⟨_, rfl, Option.bind_eq_some_iff.mpr
      ⟨_, hformals.mapM_lookup hregs h.calls, h.meaning home⟩⟩

theorem Instruction.IsLine.standsIn_barrier (h : x.IsLine lib regs) (hop : x.operation = .barrier)
    (hregs : AreWritable regs) (hformals : formals.AreFor regs bits x names)
    (gates : List GateDef) :
    (Node.barrier .origin ((names.map formalRef).map .ref)).StandsIn lib regs gates formals bits [x] := by
  obtain ⟨hcalls, hargs, -⟩ := h.calls_of_barrier hop
  have heffect : (Node.barrier .origin ((names.map formalRef).map .ref)).canonical.effect? =
      some (.barrier (names.map fun n => (n, none))) := by
    rw [Node.canonical, Node.change, map_canonical_formalRef, Node.effect?, mapM_target?_formalRef]
    rfl
  refine ⟨trivial, fun g keywords hg _ _ _ => ?_, fun e he => ?_, fun e he => ?_, fun home env => ?_⟩
  · exact ⟨_, BodyStatement.restates_barrier (hformals.ne_nil hcalls) (hformals.isOperand hg)⟩
  · cases heffect.symm.trans he
    trivial
  · cases heffect.symm.trans he
    trivial
  · have hdistinct : Bit.distinct (x.allBits.map (Bit.moved (sorted regs))) := by
      rw [Bit.distinct_iff, Bit.map_key_moved]
      exact Bit.distinct_iff.mp hcalls.distinct
    have hrestated : x.restated lib home (sorted regs) = .fence home (x.allBits.map (Bit.moved (sorted regs))) := by
      rw [Instruction.restated, hop, hargs]
    rw [heffect, Option.bind_some, Effect.inside?, map_singleton, hrestated]
    exact Option.bind_eq_some_iff.mpr ⟨_, hformals.mapM_lookup hregs hcalls, if_pos hdistinct⟩

end

end QasmCircuit
