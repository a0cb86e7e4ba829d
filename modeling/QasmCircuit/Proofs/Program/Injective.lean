import QasmCircuit.Proofs.Program.Readable

/-!
# Texts tell declarations apart

Reading a text gives one source only, and what a statement of a gate becomes does not depend on what is declared before
the gate. So two declarations with the same text have the same canonical form.

> `GateDef.canonical_eq_of_render`: the text of a declaration determines its canonical form.
-/

namespace QasmCircuit

open Source Outcome
open Program (GateScope)

variable {lib lib' : Library} {gates gates' : List GateDef} {body : List BodyStatement} {n n' : Node}

namespace Source

variable {p p' : Program} {scope : Option GateScope}

/-- A program is read in one way only. -/
theorem unplaced_eq_of_text {s s' : Source} (hs : s.Spelled) (hs' : s'.Spelled) (h : s.text = s'.text) :
    s.unplaced = s'.unplaced := by
  obtain ⟨r, hparse, hr⟩ := parse_text hs
  obtain ⟨r', hparse', hr'⟩ := parse_text hs'
  rw [h, hparse'] at hparse
  rw [← hr, ← hr', Except.ok.inj hparse]

theorem Declaration.unplaced_eq_of_text {d d' : Declaration} (hd : d.Spelled) (hd' : d'.Spelled)
    (h : d.text = d'.text) : d.unplaced = d'.unplaced := by
  have hversion : Lexeme.isNumber "2.0" := by decide
  -- A declaration stands on its own in a program.
  have hsource := @Source.unplaced_eq_of_text ⟨.origin, ⟨"2.0", .origin⟩, [.declaration d]⟩
    ⟨.origin, ⟨"2.0", .origin⟩, [.declaration d']⟩ ⟨hversion, List.forall_mem_singleton.mpr hd⟩
    ⟨hversion, List.forall_mem_singleton.mpr hd'⟩ (by simp only [Source.text, itemsText, Item.text, h])
  have hitems : [Item.declaration d.unplaced] = [.declaration d'.unplaced] := congrArg Source.items hsource
  exact Item.declaration.inj (List.singleton_inj.mp hitems)

theorem ParamsResolve.unique {es : List Expr} {ts ts' : List Term}
    (h : ParamsResolve scope es ts) (h' : ParamsResolve scope es ts') : ts = ts' := by
  induction h generalizing ts' with
  | nil =>
    cases h'
    rfl
  | cons ht _ ih =>
    cases h' with
    | cons ht' hts' => rw [Except.ok.inj (ht.symm.trans ht'), ih hts']

theorem Operation.Resolves.unique {op : Operation}
    (h : op.Resolves lib p scope n) (h' : op.Resolves lib' p' scope n') : n = n' := by
  cases h with
  | unitary hparams _ =>
    cases h' with
    | unitary hparams' _ => rw [hparams.unique hparams']
  | controlledNot _ _ =>
    cases h' with
    | controlledNot _ _ => rfl
  | call _ hparams _ =>
    cases h' with
    | call _ hparams' _ => rw [hparams.unique hparams']

/-- What is declared elsewhere has no part in what a statement of a gate becomes. -/
theorem BodyStatement.Resolves.unique {g : GateScope} {s : BodyStatement} (h : s.Resolves lib p g n)
    (h' : s.Resolves lib' p' g n') : n = n' := by
  cases h with
  | operation hop =>
    cases h' with
    | operation hop' => exact hop.unique hop'
  | barrier _ =>
    cases h' with
    | barrier _ => rfl

end Source

theorem Program.BodyResolves.unique {g : GateScope}
    {nodes nodes' : List Node} (h : BodyResolves lib gates g body nodes)
    (h' : BodyResolves lib' gates' g body nodes') : nodes = nodes' := by
  unfold BodyResolves at h h'
  induction h generalizing nodes' with
  | nil =>
    cases h'
    rfl
  | cons hn _ ih =>
    cases h' with
    | cons hn' hnodes' => rw [hn.unique hn', ih hnodes']

namespace GateDef

variable {g g' : GateDef} {body' : List BodyStatement}

theorem params_eq_of_formals {names names' : List String}
    (h : (formalsOf names).map Formals.unplaced = (formalsOf names').map Formals.unplaced) : names = names' := by
  rw [← formalNames_formalsOf names, ← formalNames_formalsOf names']
  exact Program.formalNames_unplaced h

/-- Declarations with the same text have the same canonical form, whatever was declared before them. -/
theorem canonical_eq_of_render (hg : g.IsNamed) (hg' : g'.IsNamed)
    (hbody : BodyRestates lib gates g.scope Context.body.keywords body g.body)
    (hbody' : BodyRestates lib gates' g'.scope Context.body.keywords body' g'.body) (h : g.render = g'.render) :
    g.canonical = g'.canonical := by
  rw [render_eq_toSource hbody.bodyLines_eq, render_eq_toSource hbody'.bodyLines_eq] at h
  have hplaces := Declaration.unplaced_eq_of_text (spelled_toSource hg hbody.spelled)
    (spelled_toSource hg' hbody'.spelled) (Except.ok.inj h)
  rw [toSource, toSource, Declaration.unplaced, Declaration.unplaced, Declaration.gate.injEq] at hplaces
  obtain ⟨-, hname, hparams, hargs, -, hstatements⟩ := hplaces
  replace hname : g.name = g'.name := Word.text_eq hname
  replace hparams : g.params = g'.params := params_eq_of_formals hparams
  replace hargs : g.args = g'.args := by
    rw [← map_text_wordsOf g.args, ← map_text_wordsOf g'.args]
    exact Word.map_text_eq hargs
  -- With the same names around them, the statements of one source become those of the other.
  have hscope : g.scope = g'.scope := by rw [scope, scope, hname, hparams, hargs]
  obtain ⟨nodes, hnodes, hreads⟩ := hbody.reads
  obtain ⟨nodes', hnodes', hreads'⟩ := hbody'.reads
  obtain ⟨others, hothers, hsame⟩ := @Program.BodyResolves.unplaced lib { gates := gates' } { gates := gates' } rfl
    g'.scope body' body hstatements nodes' hnodes'
  rw [hscope] at hnodes
  have hcanonical : g.body.map Node.canonical = g'.body.map Node.canonical := by
    rw [← hreads, ← hreads', hnodes.unique hothers, hsame]
  simp only [canonical, hname, hparams, hargs, hcanonical]

end GateDef

end QasmCircuit
