import QasmCircuit.Proofs.Lowering.Numeric

/-!
# Names of calls

Which words are keywords depends on where a statement stands: fewer of them are behind a guard, and in front of the
first statement of a body. A program calls its gates by name if no call begins with a word that is a keyword there, and
all gates are declared under words. A program that is not like this is never read from a text, whatever its own text is.

> `Program.callsByName_of_parse`: a program that is read from its text calls its gates by name.
-/

namespace QasmCircuit

open Source
open Program (GateScope guardOf?)

instance (keywords : List Keyword) (name : String) : Decidable (IsName keywords name) :=
  inferInstanceAs (Decidable (_ ∧ _))

/-- The words that are keywords where the action of a statement begins, behind its guard if there is one. -/
def Guard.keywords : Option Guard → List Keyword
  | none => Keyword.statements
  | some _ => Context.guarded.keywords

/-- Whether a statement that calls a gate does so by a name, where some words are keywords. -/
def Node.callsByName (keywords : List Keyword) : Node → Bool
  | .call name _ _ _ _ => decide (IsName keywords name)
  | _ => true

/-- Whether the statements of a gate call by names. Fewer words are keywords in front of the first one. -/
def Node.bodyCallsByName : List Keyword → List Node → Bool
  | _, [] => true
  | keywords, n :: rest => n.callsByName keywords && bodyCallsByName Keyword.statements rest

/-- Whether a gate is declared under a word, with a body that calls by names. -/
def GateDef.callsByName (g : GateDef) : Bool :=
  Lexeme.isWord g.name && Node.bodyCallsByName Context.body.keywords g.body

/-- Whether gates are declared under words, and called by names only. -/
def Program.callsByName (p : Program) : Bool :=
  p.gates.all GateDef.callsByName && p.body.all fun n => n.callsByName (Guard.keywords (guardOf? n))

/-! ## Statements -/

namespace Node

variable {m n : Node} {keywords : List Keyword}

theorem callsByName_change (f : Term → Term) (keywords : List Keyword) (n : Node) :
    (n.change f).callsByName keywords = n.callsByName keywords := by
  cases n <;> rfl

theorem callsByName_withGuard (guard : Guard) (keywords : List Keyword) (n : Node) :
    (n.withGuard guard).callsByName keywords = n.callsByName keywords := by
  cases n <;> rfl

theorem IsBare.guardOf?_eq_none (h : n.IsBare) : guardOf? n = none := by
  cases n <;> first | exact h | exact h.elim

theorem IsBare.guardOf?_withGuard (h : n.IsBare) (guard : Guard) : guardOf? (n.withGuard guard) = some guard := by
  cases n <;> first | rfl | exact h.elim

theorem callsByName_eq_of_unplaced (h : m.unplaced = n.canonical) (keywords : List Keyword) :
    m.callsByName keywords = n.callsByName keywords := by
  rw [← callsByName_change Term.unplaced, ← callsByName_change Term.canonical keywords n]
  exact congrArg (callsByName keywords) h

end Node

namespace Source

variable {lib : Library} {p : Program} {n : Node} {keywords : List Keyword}

theorem Operation.Resolves.callsByName {scope : Option GateScope} {op : Operation} (h : op.Resolves lib p scope n)
    (hop : op.Spelled keywords) : n.callsByName keywords := by
  cases h with
  | call _ _ _ => exact decide_eq_true hop.1
  | _ => rfl

theorem Action.Resolves.callsByName {a : Action} (h : a.Resolves lib p n) (ha : a.Spelled keywords) :
    n.callsByName keywords := by
  cases h with
  | operation h => exact h.callsByName ha
  | measure _ _ => rfl

theorem Statement.Resolves.callsByName {s : Statement} (h : s.Resolves lib p n) (hs : s.Spelled) :
    n.callsByName (Guard.keywords (guardOf? n)) := by
  cases h with
  | action h =>
    rw [h.isBare.guardOf?_eq_none]
    exact h.callsByName hs
  | barrier _ => rfl
  | guarded _ _ h =>
    rw [h.isBare.guardOf?_withGuard, Node.callsByName_withGuard]
    exact h.callsByName hs.2.2.1

theorem Statement.Restates.callsByName {s : Statement} (h : s.Restates lib p n) :
    n.callsByName (Guard.keywords (guardOf? n)) := by
  obtain ⟨m, hm, hreads⟩ := h.reads
  rw [← Node.guardOf?_eq_of_unplaced hreads, ← Node.callsByName_eq_of_unplaced hreads]
  exact hm.callsByName h.spelled

theorem BodyStatement.Resolves.callsByName {g : GateScope} {s : BodyStatement} (h : s.Resolves lib p g n)
    (hs : s.Spelled keywords) : n.callsByName keywords := by
  cases h with
  | operation h => exact h.callsByName hs
  | barrier _ => rfl

end Source

/-! ## Programs -/

section

variable {lib : Library} {gates : List GateDef}

theorem Node.bodyCallsByName_map_change (f : Term → Term) (keywords : List Keyword) (ns : List Node) :
    bodyCallsByName keywords (ns.map (change f)) = bodyCallsByName keywords ns := by
  induction ns generalizing keywords with
  | nil => rfl
  | cons n ns ih => rw [List.map_cons, bodyCallsByName, bodyCallsByName, callsByName_change, ih]

theorem Source.BodySpelled.bodyCallsByName {g : GateScope} {body : List BodyStatement}
    {nodes : List Node} {keywords : List Keyword} (hbody : BodySpelled keywords body)
    (h : Program.BodyResolves lib gates g body nodes) : Node.bodyCallsByName keywords nodes := by
  induction h generalizing keywords with
  | nil => rfl
  | cons hs _ ih =>
    rw [Node.bodyCallsByName, hs.callsByName hbody.1, ih hbody.2]
    rfl

theorem GateDef.callsByName_unplaced (g : GateDef) : g.unplaced.callsByName = g.callsByName :=
  congrArg (Lexeme.isWord g.name && ·) (Node.bodyCallsByName_map_change _ _ g.body)

theorem GateDef.callsByName_canonical (g : GateDef) : g.canonical.callsByName = g.callsByName :=
  congrArg (Lexeme.isWord g.name && ·) (Node.bodyCallsByName_map_change _ _ g.body)

theorem GateDef.Restates.callsByName {g : GateDef} {d : Declaration} (h : g.Restates lib gates d) : g.callsByName := by
  obtain ⟨g', hg', hreads⟩ := h.reads
  rw [← callsByName_canonical, ← hreads, callsByName_unplaced]
  have hspelled := h.spelled
  cases hg' with
  | gate _ _ _ hbody =>
    rw [GateDef.callsByName, hspelled.1, hspelled.2.2.2.bodyCallsByName hbody]
    rfl

namespace Program

variable {p q : Program} {text : String}

/-- A readable program with a text calls its gates by name. -/
theorem Readable.callsByName (h : p.Readable lib) (htext : p.render = .ok text) : p.callsByName := by
  obtain ⟨gateTexts, lines, hgateTexts, hlines, -⟩ := exists_lines_of_render htext
  rw [Program.callsByName, Bool.and_eq_true, List.all_eq_true, List.all_eq_true]
  refine ⟨fun g hg => ?_, fun n hn => ?_⟩
  · obtain ⟨before, after, hsplit⟩ := List.append_of_mem hg
    obtain ⟨gateText, hgateText⟩ := mem_of_mapM_ok hgateTexts g hg
    obtain ⟨d, hd⟩ := h.gates before g after hsplit gateText hgateText
    exact hd.callsByName
  · obtain ⟨line, hline⟩ := mem_of_mapM_ok hlines n hn
    obtain ⟨s, hs⟩ := h.body n hn line hline
    exact hs.callsByName

theorem all_callsByName_map_change (f : Term → Term) (ns : List Node) :
    ((ns.map (Node.change f)).all fun n => n.callsByName (Guard.keywords (guardOf? n))) =
      ns.all fun n => n.callsByName (Guard.keywords (guardOf? n)) := by
  rw [List.all_map]
  refine congrArg ns.all (funext fun n => ?_)
  rw [Function.comp_apply, Node.guardOf?_change, Node.callsByName_change]

theorem callsByName_eq_of_unplaced (h : q.unplaced = p.canonical) : q.callsByName = p.callsByName := by
  have hgates {f : GateDef → GateDef} (hf : ∀ g, (f g).callsByName = g.callsByName) (gates : List GateDef) :
      (gates.map f).all GateDef.callsByName = gates.all GateDef.callsByName := by
    rw [List.all_map]
    exact congrArg gates.all (funext hf)
  calc q.callsByName
    _ = q.unplaced.callsByName :=
      (congrArg₂ and (hgates GateDef.callsByName_unplaced _) (all_callsByName_map_change _ _)).symm
    _ = p.canonical.callsByName := by rw [h]
    _ = p.callsByName := congrArg₂ and (hgates GateDef.callsByName_canonical _) (all_callsByName_map_change _ _)

/-- A program that is read from its text calls its gates by name. -/
theorem callsByName_of_parse (htext : p.render = .ok text) (hq : parse lib text = .ok q)
    (hreads : q.unplaced = p.canonical) : p.callsByName := by
  -- What was read has the text, too, and all that is read from a text can be written.
  have hrender : q.render = .ok text := by
    rw [← render_canonical, canonical_eq_of_unplaced hreads, render_canonical, htext]
  rw [← callsByName_eq_of_unplaced hreads]
  exact (readable_of_parse hq).callsByName hrender

end Program

end

end QasmCircuit
