import QasmCircuit.Proofs.Program.Place

/-!
# Statements written down again

A resolved statement is written with its numbers evaluated, its indices normalised and without empty
parentheses. The source of that text resolves to the same statement, up to places and signs of zeros.
`Restates` ties a statement of a program to such a source; the lemmas build the source part by part.
-/

namespace QasmCircuit

open Source Outcome List
open Decimal (plain)
open Program (GateScope IsParameter)

variable {scope : Option GateScope} {ts : List Term} {es : List Expr} {lib : Library} {p : Program}
  {keywords : List Keyword} {refs : List Ref} {g : GateScope} {nodes : List Node} {gates : List GateDef}
  {body : List BodyStatement} {x : Float} {c : Ref} {line lines : String}

/-! ## Parameters -/

/-- A parameter can be written as an expression that becomes it. -/
structure Term.Restates (scope : Option GateScope) (t : Term) (e : Expr) : Prop where
  spelled : e.Spelled
  text_eq : t.paramText = .ok e.text
  reads : ∃ t', IsParameter scope e t' ∧ t'.unplaced = t.canonical

namespace Term

/-- Every finite number can be written. -/
theorem restates_real (scope : Option GateScope) (hx : x.isFinite) :
    (Term.value (.real x)).Restates scope (.ofReal (plain x)) := by
  have hplain : (plain x).isFinite := by rw [Decimal.isFinite_plain, hx]
  have hvalue : (Expr.ofReal (plain x)).value? [] = some (plain x) :=
    (Expr.evaluate_iff [] _).mp (Expr.evaluate_ofReal hplain (Expr.unplaced_ofReal _) [])
  have hnames : (Expr.ofReal (plain x)).names = [] := by
    rw [← (Expr.names_toTree _).1, Expr.names_ofReal (Expr.unplaced_ofReal _)]
  refine ⟨Expr.spelled_ofReal hplain, ?_, .value (.real (plain x)), ?_, ?_⟩
  · rw [Expr.text_ofReal hplain]
    show (if x.isFinite then Except.ok _ else _) = _
    rw [if_pos hx]
    rfl
  · cases scope with
    | none => exact ⟨_, hvalue, rfl⟩
    | some g =>
      refine ⟨fun n hn => absurd (hnames ▸ hn) not_mem_nil, ?_⟩
      rw [if_pos hnames]
      exact ⟨_, hvalue, rfl⟩
  · rw [Term.unplaced, Term.canonical, Datum.plain]

theorem isFinite_of_realText {s : String} (h : realText x = .ok s) : x.isFinite := by
  unfold realText at h
  split at h
  · next hx => exact hx
  · exact nomatch h

/-- A parameter that was read and has a text can be written. -/
theorem exists_restates {e : Expr} {t : Term} (he : e.Spelled)
    (ht : IsParameter scope e t) {s : String} (hs : t.paramText = .ok s) : ∃ e', t.Restates scope e' := by
  have hreal : ∀ {x}, Term.value (.real x) = t → ∃ e', t.Restates scope e' := by
    rintro x rfl
    exact ⟨_, restates_real scope (isFinite_of_realText hs)⟩
  cases scope with
  | none =>
    obtain ⟨x, -, hx⟩ := ht
    exact hreal hx
  | some g =>
    by_cases hnames : e.names = []
    · obtain ⟨x, -, hx⟩ : ∃ x, e.value? [] = some x ∧ Term.value (.real x) = t := by
        have h := ht.2
        rwa [if_pos hnames] at h
      exact hreal hx
    · have hsymbolic : Term.symbolic e.text e.toTree = t := by
        have h := ht.2
        rwa [if_neg hnames] at h
      refine ⟨e, he, ?_, t, ht, ?_⟩
      · rw [← hsymbolic]
        rfl
      · rw [← hsymbolic]
        rfl

end Term

/-! ## References -/

namespace Ref

variable {r : Ref}

def toSource (r : Ref) : Reference := ⟨⟨r.name, .origin⟩, r.index.map fun i => ⟨toString i, .origin⟩⟩

/-- A reference that can be written: its name is a word, and its index has no sign. -/
def IsWritable (r : Ref) : Prop := Lexeme.isWord r.name ∧ ∀ i ∈ r.index, 0 ≤ i

theorem text_toSource (r : Ref) : r.toSource.text = r.text := by
  obtain ⟨kind, name, index, position⟩ := r
  cases index with
  | none => exact String.append_empty
  | some i =>
    show name ++ ("[" ++ toString i ++ "]") = name ++ "[" ++ toString i ++ "]"
    rw [← String.append_assoc, ← String.append_assoc]

theorem isInteger_toString {i : Int} (h : 0 ≤ i) : Lexeme.isInteger (toString i) := by
  obtain ⟨n, rfl⟩ := Int.eq_ofNat_of_zero_le h
  exact Decimal.isInteger_toString n

theorem value_toString {i : Int} (h : 0 ≤ i) : ((Word.mk (toString i) .origin).value : Int) = i := by
  obtain ⟨n, rfl⟩ := Int.eq_ofNat_of_zero_le h
  exact congrArg Nat.cast (Decimal.digitsValue_toString n)

theorem spelled_toSource (h : r.IsWritable) : r.toSource.Spelled := by
  refine ⟨h.1, fun w hw => ?_⟩
  obtain ⟨i, hi, rfl⟩ := Option.mem_map.mp hw
  exact isInteger_toString (h.2 i hi)

theorem indexValue_toSource (h : r.IsWritable) : r.toSource.indexValue = r.index := by
  obtain ⟨kind, name, index, position⟩ := r
  cases index with
  | none => rfl
  | some i => exact congrArg some (value_toString (h.2 i rfl))

theorem toRef_toSource (h : r.IsWritable) (kind : RefKind) :
    (r.toSource.toRef kind).unplaced = { r with kind := kind, position := .origin } := by
  rw [Reference.toRef, Ref.unplaced, indexValue_toSource h]
  rfl

end Ref

/-- A reference to what a source refers to, written again. -/
theorem Source.Reference.isWritable_toRef {s : Reference} (h : s.Spelled) (kind : RefKind) :
    (s.toRef kind).IsWritable := by
  refine ⟨h.1, fun i hi => ?_⟩
  obtain ⟨w, -, rfl⟩ := Option.mem_map.mp hi
  exact Int.natCast_nonneg _

variable {text : String} {op : Operation}

theorem Source.Reference.IsQuantum.restated {s : Reference}
    (h : s.Spelled) (hs : s.IsQuantum p scope) (kind : RefKind) : (s.toRef kind).toSource.IsQuantum p scope := by
  have hindex := Ref.indexValue_toSource (s.isWritable_toRef h kind)
  cases scope with
  | some g => exact ⟨hs.1, hindex.trans hs.2⟩
  | none =>
    obtain ⟨size, hsize, hrange⟩ := hs
    exact ⟨size, hsize, by rw [hindex]; exact hrange⟩

/-! ## Calls -/

theorem mapM_paramText (h : Forall₂ (Term.Restates scope) ts es) : ts.mapM Term.paramText = .ok (es.map Expr.text) := by
  rw [mapM_eq_ok, forall₂_map_right_iff]
  exact h.imp fun t e ht => ht.text_eq

theorem all_spelled (h : Forall₂ (Term.Restates scope) ts es) : ∀ e ∈ es, e.Spelled := by
  induction h with
  | nil => exact forall_mem_nil _
  | cons ht _ ih => exact forall_mem_cons.mpr ⟨ht.spelled, ih⟩

theorem mapM_render_refs (refs : List Ref) : (refs.map Term.ref).mapM Term.render = .ok (refs.map Ref.text) := by
  rw [mapM_eq_ok, forall₂_map_left_iff, forall₂_map_right_iff]
  exact forall₂_same.mpr fun r _ => rfl

theorem referencesText_toSource (refs : List Ref) :
    referencesText (refs.map Ref.toSource) = Text.join "," (refs.map Ref.text) := by
  rw [referencesText, map_map]
  exact congrArg _ (map_congr_left fun r _ => r.text_toSource)

theorem callText_restated (h : Forall₂ (Term.Restates scope) ts es) (name : String) (refs : List Ref) :
    callText name ts (refs.map .ref) =
      .ok (nameWithParams name (es.map Expr.text) ++ " " ++ referencesText (refs.map Ref.toSource)) := by
  rw [callText, mapM_render_refs, mapM_paramText h, referencesText_toSource]
  rfl

theorem exists_paramsResolve (h : Forall₂ (Term.Restates scope) ts es) :
    ∃ ts', ParamsResolve scope es ts' ∧ ts'.map Term.unplaced = ts.map Term.canonical := by
  induction h with
  | nil => exact ⟨[], .nil, rfl⟩
  | cons ht _ ih =>
    obtain ⟨t', ht', hreads⟩ := ht.reads
    obtain ⟨ts', hts', hmap⟩ := ih
    exact ⟨t' :: ts', .cons (Program.parameter_iff.mpr ht') hts', by rw [map_cons, map_cons, hreads, hmap]⟩

/-- The operands of a statement: references to qubits that can be written. -/
def Ref.IsOperand (p : Program) (scope : Option GateScope) (kind : RefKind) (r : Ref) : Prop :=
  r.kind = kind ∧ r.IsWritable ∧ r.toSource.IsQuantum p scope

theorem Ref.toRef_toSource_of_kind {r : Ref} (h : r.IsWritable) : (r.toSource.toRef r.kind).unplaced = r.unplaced :=
  r.toRef_toSource h r.kind

namespace Source.Operation

/-- A statement can be written as an operation that resolves to it. -/
structure Restates (lib : Library) (p : Program) (scope : Option GateScope) (keywords : List Keyword)
    (op : Operation) (n : Node) : Prop where
  spelled : op.Spelled keywords
  render_eq : n.render = .ok op.text
  reads : ∃ m, op.Resolves lib p scope m ∧ m.unplaced = n.canonical

/-- The parameters of a call in parentheses, unless there are none. -/
def parenthesised (es : List Expr) : Option Params := if es = [] then none else some ⟨.origin, es⟩

theorem exprsOf_parenthesised (es : List Expr) : exprsOf (parenthesised es) = es := by
  unfold parenthesised
  split
  · next h => rw [h]; rfl
  · rfl

theorem nameWithParams_parenthesised (name : String) (es : List Expr) :
    nameWithParams name (es.map Expr.text) = name ++ ((parenthesised es).map Params.text).getD "" := by
  unfold nameWithParams parenthesised
  cases es with
  | nil => exact String.append_empty.symm
  | cons e es =>
    rw [if_neg (by simp), if_neg (cons_ne_nil e es)]
    show name ++ "(" ++ _ ++ ")" = name ++ ("(" ++ _ ++ ")")
    rw [← String.append_assoc, ← String.append_assoc]

variable {position : Position}

theorem operandTerms_toSource (h : ∀ r ∈ refs, r.IsOperand p scope .quantum) :
    (operandTerms (refs.map Ref.toSource)).map Term.unplaced = (refs.map Term.ref).map Term.canonical := by
  rw [operandTerms, map_map, map_map, map_map]
  refine map_congr_left fun r hr => ?_
  obtain ⟨hkind, hwritable, -⟩ := h r hr
  show Term.ref (r.toSource.toRef .quantum).unplaced = .ref r.unplaced
  rw [← hkind, r.toRef_toSource_of_kind hwritable]

theorem referencesSpelled_toSource (hne : refs ≠ [])
    (h : ∀ r ∈ refs, r.IsOperand p scope .quantum) : ReferencesSpelled (refs.map Ref.toSource) := by
  refine ⟨by rwa [Ne, map_eq_nil_iff], fun s hs => ?_⟩
  obtain ⟨r, hr, rfl⟩ := mem_map.mp hs
  exact r.spelled_toSource (h r hr).2.1

theorem isQuantum_toSource (h : ∀ r ∈ refs, r.IsOperand p scope .quantum) :
    ∀ s ∈ refs.map Ref.toSource, s.IsQuantum p scope := by
  intro s hs
  obtain ⟨r, hr, rfl⟩ := mem_map.mp hs
  exact (h r hr).2.2

/-- A call of a known gate can be written. -/
theorem restates_call {name : String} (hname : IsName keywords name)
    (hknown : lib.contains name ∨ (findGate? p.gates name).isSome)
    (hparams : Forall₂ (Term.Restates scope) ts es) (hne : refs ≠ [])
    (hrefs : ∀ r ∈ refs, r.IsOperand p scope .quantum) :
    Restates lib p scope keywords (.call ⟨name, .origin⟩ (parenthesised es) (refs.map Ref.toSource))
      (.call name position ts (refs.map .ref) none) := by
  refine ⟨⟨hname, ?_, referencesSpelled_toSource hne hrefs⟩, ?_, ?_⟩
  · intro ps hps e he
    have hmem : e ∈ es := by
      rw [← exprsOf_parenthesised es, exprsOf, hps]
      exact he
    exact all_spelled hparams e hmem
  · rw [Node.render, callText_restated hparams, nameWithParams_parenthesised]
    rfl
  · obtain ⟨ts', hts', hreads⟩ := exists_paramsResolve hparams
    refine ⟨_, .call hknown (by rwa [exprsOf_parenthesised]) (isQuantum_toSource hrefs), ?_⟩
    simp only [Node.unplaced, Node.canonical, Node.change, hreads, operandTerms_toSource hrefs]

/-- A primitive gate with parameters can be written. -/
theorem restates_unitary {theta phi lam : Expr} {r : Ref}
    (hparams : Forall₂ (Term.Restates scope) ts [theta, phi, lam]) (hr : r.IsOperand p scope .primitive) :
    Restates lib p scope keywords (.unitary .origin theta phi lam r.toSource)
      (.primitive "U" ts [.ref r] none position) := by
  have hspelled := all_spelled hparams
  refine ⟨⟨hspelled theta (by simp), hspelled phi (by simp), hspelled lam (by simp), r.spelled_toSource hr.2.1⟩, ?_, ?_⟩
  · have hcall := callText_restated hparams "U" [r]
    show (do guardText none (← callText "U" ts [.ref r])) = _
    rw [show [Term.ref r] = [r].map .ref from rfl, hcall]
    show Except.ok ("U" ++ "(" ++ Text.join "," [theta.text, phi.text, lam.text] ++ ")" ++ " " ++ r.toSource.text) = _
    rw [@String.append_assoc _ ")" " "]
    rfl
  · obtain ⟨ts', hts', hreads⟩ := exists_paramsResolve hparams
    refine ⟨_, .unitary hts' hr.2.2, ?_⟩
    have href := r.toRef_toSource_of_kind hr.2.1
    rw [hr.1] at href
    simp only [Node.unplaced, Node.canonical, Node.change, hreads, map_cons, map_nil, Term.unplaced, Term.canonical,
      href]

/-- The primitive controlled gate can be written. -/
theorem restates_controlledNot {t : Ref} (hc : c.IsOperand p scope .primitive) (ht : t.IsOperand p scope .primitive) :
    Restates lib p scope keywords (.controlledNot .origin c.toSource t.toSource)
      (.primitive "CX" [.ref c] [.ref t] none position) := by
  refine ⟨⟨c.spelled_toSource hc.2.1, t.spelled_toSource ht.2.1⟩, ?_, ?_⟩
  · have hcall := @callText_restated scope [] [] .nil "CX" [c, t]
    show (do guardText none (← callText "CX" [] [.ref c, .ref t])) = _
    rw [show [Term.ref c, .ref t] = [c, t].map .ref from rfl, hcall]
    rfl
  · refine ⟨_, .controlledNot hc.2.2 ht.2.2, ?_⟩
    have hc' := c.toRef_toSource_of_kind hc.2.1
    have ht' := t.toRef_toSource_of_kind ht.2.1
    rw [hc.1] at hc'
    rw [ht.1] at ht'
    simp only [Node.unplaced, Node.canonical, Node.change, map_cons, map_nil, Term.unplaced, Term.canonical, hc', ht']

/-- The operands of a resolved statement can be written. -/
theorem isOperand_toRef {r : Reference} (hr : r.Spelled) (h : r.IsQuantum p scope) (kind : RefKind) :
    (r.toRef kind).IsOperand p scope kind :=
  ⟨rfl, r.isWritable_toRef hr kind, h.restated hr kind⟩

theorem operandTerms_eq (rs : List Reference) : operandTerms rs = (rs.map (Reference.toRef .quantum)).map .ref := by
  rw [operandTerms, map_map]
  rfl

theorem all_isOperand {rs : List Reference} (hrs : ∀ r ∈ rs, r.Spelled) (h : ∀ r ∈ rs, r.IsQuantum p scope) :
    ∀ r ∈ rs.map (Reference.toRef .quantum), r.IsOperand p scope .quantum := by
  intro r hr
  obtain ⟨s, hs, rfl⟩ := mem_map.mp hr
  exact isOperand_toRef (hrs s hs) (h s hs) .quantum

/-- Parameters that were read and have texts can be written. -/
theorem exists_forall₂_restates (hes : ∀ e ∈ es, e.Spelled)
    (hts : ParamsResolve scope es ts) {texts : List String} (htexts : ts.mapM Term.paramText = .ok texts) :
    ∃ es', Forall₂ (Term.Restates scope) ts es' := by
  rw [mapM_eq_ok] at htexts
  induction hts generalizing texts with
  | nil => exact ⟨[], .nil⟩
  | cons ht _ ih =>
    rw [forall_mem_cons] at hes
    cases htexts with
    | cons htext hrest =>
      obtain ⟨e', he'⟩ := Term.exists_restates hes.1 (Program.parameter_iff.mp ht) htext
      obtain ⟨es', hes'⟩ := ih hes.2 hrest
      exact ⟨e' :: es', .cons he' hes'⟩

theorem exists_texts {name : String} {params operands : List Term} {guard : Option Guard}
    (h : (do guardText guard (← callText name params operands)) = Except.ok text) :
    ∃ texts, params.mapM Term.paramText = .ok texts := by
  obtain ⟨line, hline, -⟩ := bind_eq_ok.mp h
  obtain ⟨_, _, hparams⟩ := bind_eq_ok.mp hline
  obtain ⟨texts, htexts, -⟩ := bind_eq_ok.mp hparams
  exact ⟨texts, htexts⟩

/-- An operation that resolves to a statement with a text can be written as this text. -/
theorem Resolves.exists_restates {n : Node} (hop : op.Spelled keywords)
    (hn : op.Resolves lib p scope n) (htext : n.render = .ok text) :
    ∃ op' : Operation, op'.Restates lib p scope keywords n := by
  cases hn with
  | unitary hparams htarget =>
    obtain ⟨htheta, hphi, hlam, hspelled⟩ := hop
    obtain ⟨texts, htexts⟩ := exists_texts htext
    obtain ⟨es, hes⟩ := exists_forall₂_restates (by simp [htheta, hphi, hlam]) hparams htexts
    have hlength : es.length = 3 := hes.length_eq.symm.trans hparams.length_eq.symm
    obtain ⟨theta, phi, lam, rfl⟩ := length_eq_three.mp hlength
    exact ⟨_, restates_unitary hes (isOperand_toRef hspelled htarget .primitive)⟩
  | controlledNot hcontrol htarget =>
    exact ⟨_, restates_controlledNot (isOperand_toRef hop.1 hcontrol .primitive)
      (isOperand_toRef hop.2 htarget .primitive)⟩
  | call hname hparams hoperands =>
    rename_i name params operands ts
    obtain ⟨hword, hexprs, hne, hspelled⟩ := hop
    obtain ⟨texts, htexts⟩ := exists_texts htext
    have hes : ∀ e ∈ exprsOf params, e.Spelled := by
      cases params with
      | none => exact forall_mem_nil _
      | some ps => exact hexprs ps rfl
    obtain ⟨es, hes'⟩ := exists_forall₂_restates hes hparams htexts
    rw [operandTerms_eq]
    exact ⟨_, restates_call hword hname hes' (by rwa [Ne, map_eq_nil_iff]) (all_isOperand hspelled hoperands)⟩

end Source.Operation

/-! ## Guards -/

theorem Text.showing_eq_ok {short : Bool} : showing short text = .ok line ↔ short ∧ text = line := by
  cases short <;> simp [showing]

namespace Node

variable {n : Node}

/-- A statement that can have a guard and has none. -/
def IsBare : Node → Prop
  | .call _ _ _ _ guard => guard = none
  | .primitive _ _ _ guard _ => guard = none
  | .measure _ _ _ guard => guard = none
  | _ => False

theorem isBare_change (f : Term → Term) (n : Node) : (n.change f).IsBare ↔ n.IsBare := by
  cases n <;> simp only [change, IsBare]

theorem IsBare.of_unplaced {m : Node} (h : m.unplaced = n.canonical) (hm : m.IsBare) : n.IsBare := by
  have hbare : m.unplaced.IsBare := (isBare_change _ m).mpr hm
  rw [h] at hbare
  exact (isBare_change _ n).mp hbare

theorem IsBare.not_isSelfTerminated (h : n.IsBare) : n.isSelfTerminated = false := by
  cases n <;> first | rfl | exact absurd h (by simp [IsBare])

theorem guardOf?_change (f : Term → Term) (n : Node) : Program.guardOf? (n.change f) = Program.guardOf? n := by
  cases n <;> rfl

theorem guardOf?_eq_of_unplaced {m : Node} (h : m.unplaced = n.canonical) :
    Program.guardOf? m = Program.guardOf? n := by
  rw [← guardOf?_change Term.unplaced, ← guardOf?_change Term.canonical n]
  exact congrArg Program.guardOf? h

/-- A guard stands in front of the text, if there is one. -/
theorem IsBare.render_withGuard (h : n.IsBare) (guard : Guard) :
    (n.withGuard guard).render = n.render.bind (guardText (some guard)) := by
  cases n with
  | call name p params operands g =>
    cases h
    rw [withGuard, Node.render, Node.render]
    cases callText name params operands <;> rfl
  | primitive op first second g p =>
    cases h
    rw [withGuard, Node.render, Node.render]
    cases callText op (primitiveParams op first) (primitiveOperands op first second) <;> rfl
  | measure qubit clbit p g =>
    cases h
    rw [withGuard, Node.render, Node.render]
    cases qubit.render with
    | error e => rfl
    | ok q => cases clbit.render <;> rfl
  | _ => cases h

end Node

namespace Source

variable {n : Node}

theorem Operation.Resolves.isBare (h : op.Resolves lib p scope n) : n.IsBare := by
  cases h <;> rfl

theorem Action.Resolves.isBare {a : Action} (h : a.Resolves lib p n) : n.IsBare := by
  cases h with
  | operation hop => exact hop.isBare
  | measure _ _ => rfl

/-- A statement can be written as an action that resolves to it. -/
structure Action.Restates (lib : Library) (p : Program) (keywords : List Keyword) (a : Action) (n : Node) :
    Prop where
  spelled : a.Spelled keywords
  render_eq : n.render = .ok a.text
  reads : ∃ m, a.Resolves lib p m ∧ m.unplaced = n.canonical

theorem Action.Restates.isBare {a : Action} (h : a.Restates lib p keywords n) : n.IsBare := by
  obtain ⟨m, hm, hreads⟩ := h.reads
  exact .of_unplaced hreads hm.isBare

theorem Operation.Restates.action (h : op.Restates lib p none keywords n) :
    (Action.operation op).Restates lib p keywords n := by
  obtain ⟨m, hm, hreads⟩ := h.reads
  exact ⟨h.spelled, h.render_eq, m, .operation hm, hreads⟩

end Source

/-- A reference to classical bits that can be written. -/
def Ref.IsClassical (p : Program) (r : Ref) : Prop :=
  r.kind = .classical ∧ r.IsWritable ∧ r.toSource.IsDeclared p.cregs

namespace Source

variable {position : Position}

/-- A measurement can be written. -/
theorem Action.restates_measure {q : Ref} (hq : q.IsOperand p none .quantum) (hc : c.IsClassical p) :
    (Action.measure .origin q.toSource c.toSource).Restates lib p keywords
      (.measure (.ref q) (.ref c) position none) := by
  refine ⟨⟨q.spelled_toSource hq.2.1, c.spelled_toSource hc.2.1⟩, ?_, _, .measure hq.2.2 hc.2.2, ?_⟩
  · show Except.ok ("measure " ++ q.text ++ " -> " ++ c.text) = _
    rw [← q.text_toSource, ← c.text_toSource]
    rfl
  · have hq' := q.toRef_toSource_of_kind hq.2.1
    have hc' := c.toRef_toSource_of_kind hc.2.1
    rw [hq.1] at hq'
    rw [hc.1] at hc'
    simp only [Node.unplaced, Node.canonical, Node.change, Term.unplaced, Term.canonical, hq', hc']

variable {a : Action} {n : Node}

theorem Action.Resolves.exists_restates (ha : a.Spelled keywords)
    (hn : a.Resolves lib p n) (htext : n.render = .ok text) : ∃ a' : Action, a'.Restates lib p keywords n := by
  cases hn with
  | operation hop =>
    obtain ⟨op', hop'⟩ := hop.exists_restates ha htext
    exact ⟨_, hop'.action⟩
  | measure hqubit hclbit =>
    rename_i position qubit clbit
    have hindex := Ref.indexValue_toSource (clbit.isWritable_toRef ha.2 .classical)
    refine ⟨_, restates_measure (Operation.isOperand_toRef ha.1 hqubit .quantum)
      ⟨rfl, clbit.isWritable_toRef ha.2 .classical, ?_⟩⟩
    obtain ⟨size, hsize, hrange⟩ := hclbit
    exact ⟨size, hsize, by rw [hindex]; exact hrange⟩

/-! ## Statements -/

/-- A statement of a program can be written as a source statement that resolves to it. -/
structure Statement.Restates (lib : Library) (p : Program) (s : Statement) (n : Node) : Prop where
  spelled : s.Spelled
  line_eq : n.statementLine = .ok (s.text ++ ";")
  reads : ∃ m, s.Resolves lib p m ∧ m.unplaced = n.canonical

theorem statementLine_eq (h : n.render = .ok text)
    (hself : n.isSelfTerminated = false) : n.statementLine = .ok (text ++ ";") := by
  rw [Node.statementLine, h, hself]
  rfl

theorem Action.Restates.statement (h : a.Restates lib p Keyword.statements n) :
    (Statement.action a).Restates lib p n := by
  obtain ⟨m, hm, hreads⟩ := h.reads
  exact ⟨h.spelled, statementLine_eq h.render_eq h.isBare.not_isSelfTerminated, m, .action hm, hreads⟩

theorem Statement.restates_barrier (hne : refs ≠ []) (hrefs : ∀ r ∈ refs, r.IsOperand p none .quantum) :
    (Statement.barrier .origin (refs.map Ref.toSource)).Restates lib p (.barrier position (refs.map .ref)) := by
  refine ⟨Operation.referencesSpelled_toSource hne hrefs, ?_, _, .barrier (Operation.isQuantum_toSource hrefs), ?_⟩
  · refine statementLine_eq ?_ rfl
    rw [Node.render, mapM_render_refs, Statement.text, referencesText_toSource]
    rfl
  · simp only [Node.unplaced, Node.canonical, Node.change, Operation.operandTerms_toSource hrefs]

theorem Action.Restates.guarded (h : a.Restates lib p Context.guarded.keywords n)
    {guard : Guard} {size : Int} (hword : Lexeme.isWord guard.register) (hnonneg : 0 ≤ guard.value)
    (hshort : Text.isShort guard.value)
    (hregister : p.cregs.lookup guard.register = some size) (hfits : Program.fits guard.value size) :
    (Statement.guarded .origin ⟨guard.register, .origin⟩ ⟨toString guard.value, .origin⟩ a).Restates lib p
      (n.withGuard guard) := by
  obtain ⟨m, hm, hreads⟩ := h.reads
  have hvalue := Ref.value_toString hnonneg
  refine ⟨⟨hword, Ref.isInteger_toString hnonneg, h.spelled, rfl⟩, ?_, _, .guarded hregister ?_ hm, ?_⟩
  · refine statementLine_eq ?_ ?_
    · rw [h.isBare.render_withGuard, h.render_eq]
      exact Text.showing_eq_ok.mpr ⟨hshort, rfl⟩
    · have hbare := h.isBare
      cases n <;> first | rfl | exact absurd hbare (by simp [Node.IsBare])
  · rw [hvalue]
    exact hfits
  · rw [Node.unplaced] at hreads
    rw [Node.unplaced, Node.canonical, withGuard_change, withGuard_change, hreads, hvalue, Node.canonical]

/-- A statement that resolves to one with a text can be written as this text. -/
theorem Statement.Resolves.exists_restates {s : Statement} (hs : s.Spelled)
    (hn : s.Resolves lib p n) (hline : n.statementLine = .ok line) :
    ∃ s' : Statement, s'.Restates lib p n := by
  obtain ⟨text, htext, -⟩ := bind_eq_ok.mp hline
  cases hn with
  | action ha =>
    obtain ⟨a', ha'⟩ := ha.exists_restates hs htext
    exact ⟨_, ha'.statement⟩
  | barrier hoperands =>
    rename_i position operands
    rw [Operation.operandTerms_eq]
    exact ⟨_, restates_barrier (by rw [Ne, map_eq_nil_iff]; exact hs.1) (Operation.all_isOperand hs.2 hoperands)⟩
  | guarded hregister hfits ha =>
    rename_i position register value a m size
    rw [ha.isBare.render_withGuard] at htext
    obtain ⟨inner, hinner, hguard⟩ := bind_eq_ok.mp htext
    obtain ⟨a', ha'⟩ := ha.exists_restates hs.2.2.1 hinner
    exact ⟨_, @Action.Restates.guarded lib p a' m ha' ⟨register.text, value.value⟩ size hs.1
      (Int.natCast_nonneg _) (Text.showing_eq_ok.mp hguard).1 hregister hfits⟩

theorem Statement.Restates.mono {q : Program} (hpq : p.Within q) {s : Statement}
    (h : s.Restates lib p n) : s.Restates lib q n := by
  obtain ⟨m, hm, hreads⟩ := h.reads
  exact ⟨h.spelled, h.line_eq, m, hm.mono hpq, hreads⟩

/-! ## Bodies of gates -/

/-- A statement of a gate can be written as a source statement that resolves to it. -/
structure BodyStatement.Restates (lib : Library) (p : Program) (g : GateScope) (keywords : List Keyword)
    (s : BodyStatement) (n : Node) : Prop where
  spelled : s.Spelled keywords
  line_eq : n.statementLine = .ok (s.text ++ ";")
  reads : ∃ m, s.Resolves lib p g m ∧ m.unplaced = n.canonical

theorem Operation.Restates.bodyStatement (h : op.Restates lib p (some g) keywords n) :
    (BodyStatement.operation op).Restates lib p g keywords n := by
  obtain ⟨m, hm, hreads⟩ := h.reads
  have hbare : n.IsBare := .of_unplaced hreads hm.isBare
  exact ⟨h.spelled, statementLine_eq h.render_eq hbare.not_isSelfTerminated, m, .operation hm, hreads⟩

theorem BodyStatement.restates_barrier (hne : refs ≠ []) (hrefs : ∀ r ∈ refs, r.IsOperand p (some g) .quantum) :
    (BodyStatement.barrier .origin (refs.map Ref.toSource)).Restates lib p g keywords
      (.barrier position (refs.map .ref)) := by
  refine ⟨Operation.referencesSpelled_toSource hne hrefs, ?_, _, .barrier (Operation.isQuantum_toSource hrefs), ?_⟩
  · refine statementLine_eq ?_ rfl
    rw [Node.render, mapM_render_refs, BodyStatement.text, referencesText_toSource]
    rfl
  · simp only [Node.unplaced, Node.canonical, Node.change, Operation.operandTerms_toSource hrefs]

theorem BodyStatement.Resolves.exists_restates {s : BodyStatement} (hs : s.Spelled keywords)
    (hn : s.Resolves lib p g n) (hline : n.statementLine = .ok line) :
    ∃ s' : BodyStatement, s'.Restates lib p g keywords n := by
  obtain ⟨text, htext, -⟩ := bind_eq_ok.mp hline
  cases hn with
  | operation hop =>
    obtain ⟨op', hop'⟩ := hop.exists_restates hs htext
    exact ⟨_, hop'.bodyStatement⟩
  | barrier hoperands =>
    rw [Operation.operandTerms_eq]
    exact ⟨_, restates_barrier (by rw [Ne, map_eq_nil_iff]; exact hs.1) (Operation.all_isOperand hs.2 hoperands)⟩

/-- The body of a gate can be written as source statements that resolve to it. Fewer words are keywords in
front of the first one. -/
inductive BodyRestates (lib : Library) (gates : List GateDef) (g : GateScope) :
    List Keyword → List BodyStatement → List Node → Prop
  | nil {keywords : List Keyword} : BodyRestates lib gates g keywords [] []
  | cons {keywords : List Keyword} {s : BodyStatement} {rest : List BodyStatement} {n : Node}
      {nodes : List Node} (h : s.Restates lib { gates := gates } g keywords n)
      (hrest : BodyRestates lib gates g Keyword.statements rest nodes) :
      BodyRestates lib gates g keywords (s :: rest) (n :: nodes)

namespace BodyRestates

section

variable (h : BodyRestates lib gates g keywords body nodes)

include h

theorem spelled : BodySpelled keywords body := by
  induction h with
  | nil => exact trivial
  | cons hs _ ih => exact ⟨hs.spelled, ih⟩

theorem bodyLines_eq : Node.bodyLines nodes = .ok (bodyText body) := by
  induction h with
  | nil => rfl
  | cons hs _ ih =>
    obtain ⟨text, htext, hline⟩ := bind_eq_ok.mp hs.line_eq
    rw [Node.bodyLines, htext, ih]
    show Except.ok ("\n  " ++ _ ++ _) = _
    rw [pure_eq_ok.mp hline, ← String.append_assoc]
    rfl

theorem reads : ∃ nodes', Program.BodyResolves lib gates g body nodes' ∧
      nodes'.map Node.unplaced = nodes.map Node.canonical := by
  induction h with
  | nil => exact ⟨[], .nil, rfl⟩
  | cons hs _ ih =>
    obtain ⟨m, hm, hreads⟩ := hs.reads
    obtain ⟨nodes', hnodes', hmap⟩ := ih
    exact ⟨m :: nodes', .cons hm hnodes', by rw [map_cons, map_cons, hreads, hmap]⟩

end

end BodyRestates

/-- The text of a body has the text of its first statement and of the statements behind it. -/
theorem exists_of_bodyLines_cons (h : Node.bodyLines (n :: nodes) = .ok lines) :
    (∃ line, n.statementLine = .ok line) ∧ ∃ rest, Node.bodyLines nodes = .ok rest := by
  obtain ⟨text, htext, hrest⟩ := bind_eq_ok.mp h
  obtain ⟨more, hmore, -⟩ := bind_eq_ok.mp hrest
  refine ⟨⟨if n.isSelfTerminated then text else text ++ ";", ?_⟩, more, hmore⟩
  rw [Node.statementLine, htext]
  rfl

theorem exists_bodyRestates
    (hbody : BodySpelled keywords body) (h : Program.BodyResolves lib gates g body nodes)
    (hlines : Node.bodyLines nodes = .ok lines) : ∃ body', BodyRestates lib gates g keywords body' nodes := by
  induction h generalizing keywords lines with
  | nil => exact ⟨[], .nil⟩
  | cons hs _ ih =>
    obtain ⟨⟨line, hline⟩, more, hmore⟩ := exists_of_bodyLines_cons hlines
    obtain ⟨s', hs'⟩ := hs.exists_restates hbody.1 hline
    obtain ⟨rest', hrest'⟩ := ih hbody.2 hmore
    exact ⟨s' :: rest', .cons hs' hrest'⟩

end Source

end QasmCircuit
