import QasmCircuit.Proofs.Program.Extend
import QasmCircuit.Proofs.Program.Parameter

/-!
# Places have no part in the meaning

Two sources that differ in nothing but their places give programs that differ in nothing but theirs: both
are read, or none of them.

The rules that give a program its meaning look at words and never at places, and `unplaced` forgets the places.
So each lemma is about one rule: whatever it gives for a part of a source, it gives the same up to `unplaced` for
a part that is the same up to `unplaced`, with a program that is.

> `ItemsExtend.unplaced`: the items of a source may stand elsewhere.
-/

namespace QasmCircuit

open List

variable {scope : Option Program.GateScope} {lib : Library} {p p' : Program} {v w : Source.Word} {name : String}

variable {α β γ : Type}

/-- Members read elsewhere that are the same up to what a function forgets give lists that are. -/
theorem exists_forall₂_map {R S : α → β → Prop} {f : β → γ} {as as' : List α} {bs : List β}
    {E : α → α → Prop} (hread : ∀ a a' b, E a' a → R a b → ∃ b', S a' b' ∧ f b' = f b)
    (heq : Forall₂ E as' as) (h : Forall₂ R as bs) : ∃ bs', Forall₂ S as' bs' ∧ bs'.map f = bs.map f := by
  induction h generalizing as' with
  | nil =>
    cases heq
    exact ⟨[], .nil, rfl⟩
  | cons ha _ ih =>
    cases heq with
    | cons hhead htail =>
      obtain ⟨b', hb', hunplaced⟩ := hread _ _ _ hhead ha
      obtain ⟨bs', hbs', hmap⟩ := ih htail
      exact ⟨b' :: bs', .cons hb' hbs', by rw [map_cons, map_cons, hunplaced, hmap]⟩

namespace Source

open Program (GateScope)

/-! ## Words and references -/

namespace Word

theorem text_eq (h : v.unplaced = w.unplaced) : v.text = w.text := by
  cases v; cases w; cases h; rfl

theorem value_eq (h : v.unplaced = w.unplaced) : v.value = w.value := by
  rw [Word.value, Word.value, text_eq h]

theorem map_text_eq {vs ws : List Word} (h : vs.map Word.unplaced = ws.map Word.unplaced) :
    vs.map Word.text = ws.map Word.text := by
  have htext := congrArg (List.map Word.text) h
  rw [map_map, map_map] at htext
  exact htext

end Word

namespace Reference

variable {r s : Reference}

section

variable (h : r.unplaced = s.unplaced)

include h

theorem name_eq : r.name.text = s.name.text :=
  Word.text_eq (congrArg Reference.name h)

theorem indexValue_eq : r.indexValue = s.indexValue := by
  have hindex := congrArg (Option.map fun w : Word => (w.value : Int)) (congrArg Reference.index h)
  rw [Reference.unplaced, Reference.unplaced, Option.map_map, Option.map_map] at hindex
  exact hindex

theorem toRef_unplaced (kind : RefKind) : (r.toRef kind).unplaced = (s.toRef kind).unplaced := by
  simp only [toRef, Ref.unplaced, name_eq h, indexValue_eq h]

theorem IsDeclared.unplaced {regs : List (String × Int)} (hs : s.IsDeclared regs) : r.IsDeclared regs := by
  rw [IsDeclared, name_eq h, indexValue_eq h]
  exact hs

theorem IsQuantum.unplaced
    (hs : s.IsQuantum p scope) : r.IsQuantum p scope := by
  cases scope with
  | some g =>
    rw [IsQuantum, name_eq h, indexValue_eq h]
    exact hs
  | none => exact IsDeclared.unplaced h hs

end

end Reference

/-! ## Operations -/

section

variable {rs ss : List Reference} (h : rs.map Reference.unplaced = ss.map Reference.unplaced)

include h

theorem operandTerms_unplaced : (operandTerms rs).map Term.unplaced = (operandTerms ss).map Term.unplaced := by
  have hall := Outcome.maps_eq_iff.mp h
  clear h
  induction hall with
  | nil => rfl
  | cons hr _ ih =>
    simp only [operandTerms, map_cons, Term.unplaced, Reference.toRef_unplaced hr] at ih ⊢
    rw [ih]

theorem all_isQuantum (hs : ∀ r ∈ ss, r.IsQuantum p scope) :
    ∀ r ∈ rs, r.IsQuantum p scope := by
  intro r hr
  have hmem : r.unplaced ∈ ss.map Reference.unplaced := h ▸ mem_map_of_mem hr
  obtain ⟨s, hs', heq⟩ := mem_map.mp hmem
  exact (hs s hs').unplaced heq.symm

end

variable {n : Node}

theorem ParamsResolve.unplaced {es es' : List Expr} {ts : List Term}
    (h : es'.map Expr.unplaced = es.map Expr.unplaced) (ht : ParamsResolve scope es ts) :
    ∃ ts', ParamsResolve scope es' ts' ∧ ts'.map Term.unplaced = ts.map Term.unplaced := by
  refine exists_forall₂_map ?_ (Outcome.maps_eq_iff.mp h) ht
  intro e e' t he het
  obtain ⟨t', ht', hunplaced⟩ := (Program.parameter_iff.mp het).unplaced he
  exact ⟨t', Program.parameter_iff.mpr ht', hunplaced⟩

theorem exprsOf_unplaced {params params' : Option Params}
    (h : params'.map Params.unplaced = params.map Params.unplaced) :
    (exprsOf params').map Expr.unplaced = (exprsOf params).map Expr.unplaced := by
  have hunplaced (ps : Option Params) : (exprsOf ps).map Expr.unplaced = exprsOf (ps.map Params.unplaced) := by
    cases ps <;> rfl
  rw [hunplaced, hunplaced, h]

theorem Operation.Resolves.unplaced
    {op op' : Operation} (h : op'.unplaced = op.unplaced) (hn : op.Resolves lib p scope n) :
    ∃ n', op'.Resolves lib p scope n' ∧ n'.unplaced = n.unplaced := by
  cases hn with
  | unitary hparams htarget =>
    cases op' with
    | unitary position theta phi lam target =>
      obtain ⟨-, htheta, hphi, hlam, htarget'⟩ := Operation.unitary.inj h
      have hexprs : [theta, phi, lam].map Expr.unplaced = _ :=
        congrArg₂ (· :: ·) htheta (congrArg₂ (· :: ·) hphi (congrArg (· :: []) hlam))
      obtain ⟨ts, hts, hunplaced⟩ := hparams.unplaced hexprs
      refine ⟨_, .unitary hts (htarget.unplaced htarget'), ?_⟩
      simp only [Node.unplaced, Node.change, hunplaced, map_cons, map_nil, Term.unplaced,
        Reference.toRef_unplaced htarget']
    | _ => cases h
  | controlledNot hcontrol htarget =>
    cases op' with
    | controlledNot position control target =>
      obtain ⟨-, hcontrol', htarget'⟩ := Operation.controlledNot.inj h
      refine ⟨_, .controlledNot (hcontrol.unplaced hcontrol') (htarget.unplaced htarget'), ?_⟩
      simp only [Node.unplaced, Node.change, map_cons, map_nil, Term.unplaced,
        Reference.toRef_unplaced hcontrol', Reference.toRef_unplaced htarget']
    | _ => cases h
  | call hname hparams hoperands =>
    cases op' with
    | call name params operands =>
      obtain ⟨hname', hparams', hoperands'⟩ := Operation.call.inj h
      obtain ⟨ts, hts, hunplaced⟩ := hparams.unplaced (exprsOf_unplaced hparams')
      rw [← Word.text_eq hname'] at hname
      refine ⟨_, .call hname hts (all_isQuantum hoperands' hoperands), ?_⟩
      simp only [Node.unplaced, Node.change, hunplaced, operandTerms_unplaced hoperands', Word.text_eq hname']
    | _ => cases h

theorem Action.Resolves.unplaced {a a' : Action} (h : a'.unplaced = a.unplaced) (hn : a.Resolves lib p n) :
    ∃ n', a'.Resolves lib p n' ∧ n'.unplaced = n.unplaced := by
  cases hn with
  | operation hop =>
    cases a' with
    | operation op' =>
      obtain ⟨n', hn', hunplaced⟩ := hop.unplaced (Action.operation.inj h)
      exact ⟨n', .operation hn', hunplaced⟩
    | measure _ _ _ => cases h
  | measure hqubit hclbit =>
    cases a' with
    | operation _ => cases h
    | measure position qubit clbit =>
      obtain ⟨-, hqubit', hclbit'⟩ := Action.measure.inj h
      refine ⟨_, .measure (hqubit.unplaced hqubit') (hclbit.unplaced hclbit'), ?_⟩
      simp only [Node.unplaced, Node.change, Term.unplaced, Reference.toRef_unplaced hqubit',
        Reference.toRef_unplaced hclbit']

theorem withGuard_change (f : Term → Term) (n : Node) (guard : Guard) :
    (n.withGuard guard).change f = (n.change f).withGuard guard := by
  cases n <;> simp only [Node.withGuard, Node.change]

theorem Statement.Resolves.unplaced {s s' : Statement} (h : s'.unplaced = s.unplaced) (hn : s.Resolves lib p n) :
    ∃ n', s'.Resolves lib p n' ∧ n'.unplaced = n.unplaced := by
  cases hn with
  | action ha =>
    cases s' with
    | action a' =>
      obtain ⟨n', hn', hunplaced⟩ := ha.unplaced (Statement.action.inj h)
      exact ⟨n', .action hn', hunplaced⟩
    | _ => cases h
  | barrier hoperands =>
    cases s' with
    | barrier position operands =>
      obtain ⟨-, hoperands'⟩ := Statement.barrier.inj h
      refine ⟨_, .barrier (all_isQuantum hoperands' hoperands), ?_⟩
      simp only [Node.unplaced, Node.change, operandTerms_unplaced hoperands']
    | _ => cases h
  | guarded hregister hfits ha =>
    cases s' with
    | guarded position register value a' =>
      obtain ⟨-, hregister', hvalue', ha'⟩ := Statement.guarded.inj h
      obtain ⟨n', hn', hunplaced⟩ := ha.unplaced ha'
      rw [← Word.text_eq hregister'] at hregister
      rw [← Word.value_eq hvalue'] at hfits
      refine ⟨_, .guarded hregister hfits hn', ?_⟩
      rw [Node.unplaced] at hunplaced
      rw [Node.unplaced, Node.unplaced, withGuard_change, withGuard_change, hunplaced, Node.unplaced,
        Word.text_eq hregister', Word.value_eq hvalue']
    | _ => cases h

theorem BodyStatement.Resolves.unplaced {g : GateScope}
    {s s' : BodyStatement} (h : s'.unplaced = s.unplaced) (hn : s.Resolves lib p g n) :
    ∃ n', s'.Resolves lib p g n' ∧ n'.unplaced = n.unplaced := by
  cases hn with
  | operation hop =>
    cases s' with
    | operation op' =>
      obtain ⟨n', hn', hunplaced⟩ := hop.unplaced (BodyStatement.operation.inj h)
      exact ⟨n', .operation hn', hunplaced⟩
    | barrier _ _ => cases h
  | barrier hoperands =>
    cases s' with
    | operation _ => cases h
    | barrier position operands =>
      obtain ⟨-, hoperands'⟩ := BodyStatement.barrier.inj h
      refine ⟨_, .barrier (all_isQuantum hoperands' hoperands), ?_⟩
      simp only [Node.unplaced, Node.change, operandTerms_unplaced hoperands']

end Source

/-! ## Programs -/

namespace Program

open Source

theorem isSome_findGate? {gates : List GateDef} :
    (findGate? gates name).isSome ↔ name ∈ gates.map GateDef.name := by
  rw [findGate?, find?_isSome, mem_map]
  simp only [beq_iff_eq]

section

variable (h : p'.unplaced = p.unplaced)

include h

theorem gateNames_eq : p'.gates.map GateDef.name = p.gates.map GateDef.name := by
  have hnames := congrArg (List.map GateDef.name) (unplaced_eq_iff.mp h).2.2.2.2.1
  rw [map_map, map_map] at hnames
  exact hnames

/-- What is declared does not depend on places. -/
theorem within_of_unplaced : p.Within p' := by
  obtain ⟨-, -, hqregs, hcregs, -⟩ := unplaced_eq_iff.mp h
  refine ⟨?_, ?_, ?_⟩
  · rw [hqregs]
    exact fun _ _ hsize => hsize
  · rw [hcregs]
    exact fun _ _ hsize => hsize
  · intro name hname
    rw [isSome_findGate?] at hname ⊢
    rwa [gateNames_eq h]

theorem IsFresh.unplaced (hp : IsFresh lib p.gates name) :
    IsFresh lib p'.gates name := by
  refine ⟨?_, hp.2⟩
  rw [← Option.not_isSome_iff_eq_none, isSome_findGate?, gateNames_eq h, ← isSome_findGate?,
    Option.not_isSome_iff_eq_none]
  exact hp.1

end

theorem BodyResolves.unplaced (h : p'.unplaced = p.unplaced)
    {g : GateScope} {body body' : List BodyStatement}
    (hbody : body'.map BodyStatement.unplaced = body.map BodyStatement.unplaced) {nodes : List Node}
    (hn : BodyResolves lib p.gates g body nodes) : ∃ nodes', BodyResolves lib p'.gates g body' nodes' ∧
      nodes'.map Node.unplaced = nodes.map Node.unplaced := by
  refine exists_forall₂_map ?_ (Outcome.maps_eq_iff.mp hbody) hn
  intro s s' n hs hsn
  have hs' : s.Resolves lib { gates := p'.gates } g n := hsn.transfer (within_of_unplaced h).gates
  exact hs'.unplaced hs

theorem formalNames_unplaced {params params' : Option Formals}
    (h : params'.map Formals.unplaced = params.map Formals.unplaced) : formalNames params' = formalNames params := by
  cases params with
  | none =>
    cases params' with
    | none => rfl
    | some ps' => cases h
  | some ps =>
    cases params' with
    | none => cases h
    | some ps' => exact Word.map_text_eq (congrArg Formals.names (Option.some.inj h))

end Program

namespace Source

open Program

variable {q : Program}

theorem Item.Extends.unplaced (hp : p'.unplaced = p.unplaced)
    {i i' : Item} (h : i'.unplaced = i.unplaced) (hq : i.Extends lib p q) :
    ∃ q', i'.Extends lib p' q' ∧ q'.unplaced = q.unplaced := by
  obtain ⟨hversion, hincludes, hqregs, hcregs, hgates, hnodes⟩ := unplaced_eq_iff.mp hp
  cases hq with
  | includes hpath =>
    cases i' with
    | includes position path =>
      rw [← Word.text_eq (Item.includes.inj h).2] at hpath
      refine ⟨_, .includes hpath, unplaced_eq_iff.mpr ⟨hversion, ?_, hqregs, hcregs, hgates, hnodes⟩⟩
      rw [map_append, map_append, hincludes]
      rfl
    | _ => cases h
  | qreg hfree hfree' hpos =>
    cases i' with
    | declaration d' =>
      cases d' with
      | qreg position name size =>
        obtain ⟨-, hname, hsize⟩ := Declaration.qreg.inj (Item.declaration.inj h)
        rw [← hqregs, ← Word.text_eq hname] at hfree
        rw [← hcregs, ← Word.text_eq hname] at hfree'
        rw [← Word.value_eq hsize] at hpos
        refine ⟨_, .qreg hfree hfree' hpos, unplaced_eq_iff.mpr ⟨hversion, hincludes, ?_, hcregs, hgates, hnodes⟩⟩
        rw [hqregs, Word.text_eq hname, Word.value_eq hsize]
      | _ => cases h
    | _ => cases h
  | creg hfree hfree' hpos =>
    cases i' with
    | declaration d' =>
      cases d' with
      | creg position name size =>
        obtain ⟨-, hname, hsize⟩ := Declaration.creg.inj (Item.declaration.inj h)
        rw [← hqregs, ← Word.text_eq hname] at hfree
        rw [← hcregs, ← Word.text_eq hname] at hfree'
        rw [← Word.value_eq hsize] at hpos
        refine ⟨_, .creg hfree hfree' hpos, unplaced_eq_iff.mpr ⟨hversion, hincludes, hqregs, ?_, hgates, hnodes⟩⟩
        rw [hcregs, Word.text_eq hname, Word.value_eq hsize]
      | _ => cases h
    | _ => cases h
  | gate hg =>
    cases i' with
    | declaration d' =>
      cases d' with
      | gate position name params args bodyPosition body =>
        cases hg with
        | gate hfresh hparams hargs hbody =>
        obtain ⟨-, hname, hformals, hwords, -, hstatements⟩ := Declaration.gate.inj (Item.declaration.inj h)
        rw [← Word.text_eq hname, ← formalNames_unplaced hformals, ← Word.map_text_eq hwords] at hbody
        rw [← Word.text_eq hname] at hfresh
        rw [← formalNames_unplaced hformals] at hparams
        rw [← Word.map_text_eq hwords] at hargs
        obtain ⟨nodes', hnodes', hunplaced⟩ := hbody.unplaced hp hstatements
        refine ⟨_, .gate (.gate (hfresh.unplaced hp) hparams hargs hnodes'),
          unplaced_eq_iff.mpr ⟨hversion, hincludes, hqregs, hcregs, ?_, hnodes⟩⟩
        rw [map_append, map_append, hgates]
        simp only [map_cons, map_nil, GateDef.unplaced, hunplaced, Word.text_eq hname,
          formalNames_unplaced hformals, Word.map_text_eq hwords]
      | _ =>
        cases hg
        cases h
    | _ => cases h
  | statement hs =>
    cases i' with
    | statement s' =>
      obtain ⟨n', hn', hunplaced⟩ := (hs.mono (within_of_unplaced hp)).unplaced (Item.statement.inj h)
      refine ⟨_, .statement hn', unplaced_eq_iff.mpr ⟨hversion, hincludes, hqregs, hcregs, hgates, ?_⟩⟩
      rw [map_append, map_append, hnodes, map_singleton, map_singleton, hunplaced]
    | _ => cases h

/-- The items of a source may stand elsewhere. -/
theorem ItemsExtend.unplaced (hp : p'.unplaced = p.unplaced)
    {items items' : List Item} (h : items'.map Item.unplaced = items.map Item.unplaced)
    (hq : ItemsExtend lib p items q) : ∃ q', ItemsExtend lib p' items' q' ∧ q'.unplaced = q.unplaced := by
  induction hq generalizing p' items' with
  | nil =>
    rw [map_nil, map_eq_nil_iff] at h
    subst h
    exact ⟨p', .nil, hp⟩
  | cons hi _ ih =>
    obtain ⟨i', rest, rfl, hi', hrest⟩ := map_eq_cons_iff.mp h
    obtain ⟨r, hr, hunplaced⟩ := hi.unplaced hp hi'
    obtain ⟨q', hq', hq''⟩ := ih hunplaced hrest
    exact ⟨q', .cons hr hq', hq''⟩

end Source

end QasmCircuit
