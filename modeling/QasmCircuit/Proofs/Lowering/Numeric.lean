import QasmCircuit.Proofs.Lowering.Lower

/-!
# Programs of numbers

A program whose parameters are all numbers has no expressions, and then its places have no part in what it comes to.
So the lines of such a program become a circuit that holds what its canonical form comes to
(`Action.returns_ofText_lines`).
-/

namespace QasmCircuit

open Outcome List

namespace Term

theorem eq_value_of_unplaced {t : Term} {d : Datum} (h : t.unplaced = .value d) : t = .value d := by
  cases t with
  | value d' => exact h
  | _ => cases h

theorem target?_unplaced (t : Term) : t.unplaced.target? = t.target? := by
  cases t with
  | ref r =>
    unfold target? reference unplaced Ref.unplaced
    dsimp only
    split <;> rfl
  | _ => rfl

theorem mapM_target?_unplaced (ts : List Term) : (ts.map unplaced).mapM target? = ts.mapM target? := by
  rw [mapM_map]
  exact congrArg (ts.mapM ·) (funext target?_unplaced)

end Term

namespace Node

/-- A statement on bits whose parameters are numbers. -/
def IsNumeric : Node → Prop
  | .call _ _ params _ _ => ∀ t ∈ params, ∃ d, t = .value d
  | .measure _ _ _ _ => True
  | .barrier _ _ => True
  | _ => False

variable {m n : Node}

theorem IsNumeric.effect?_unplaced (h : n.IsNumeric) : n.unplaced.effect? = n.effect? := by
  cases n with
  | call name position params operands guard =>
    have hparams : params.map Term.unplaced = params := by
      refine (map_congr_left fun t ht => ?_).trans (map_id params)
      obtain ⟨d, rfl⟩ := h t ht
      rfl
    rw [unplaced, change, effect?, effect?, Term.mapM_target?_unplaced, hparams]
  | measure qubit clbit position guard =>
    rw [unplaced, change, effect?, effect?, Term.target?_unplaced, Term.target?_unplaced]
  | barrier position operands => rw [unplaced, change, effect?, effect?, Term.mapM_target?_unplaced]
  | _ => exact h.elim

/-- What is read back from numbers are numbers. -/
theorem IsNumeric.of_unplaced (hn : n.IsNumeric) (h : m.unplaced = n.canonical) : m.IsNumeric := by
  cases n with
  | call name position params operands guard =>
    cases m with
    | call name' position' params' operands' guard' =>
      intro t ht
      have hparams : params'.map Term.unplaced = params.map Term.canonical := by
        injection h
      have hmem : t.unplaced ∈ params.map Term.canonical := hparams ▸ mem_map_of_mem ht
      obtain ⟨t', ht', heq⟩ := mem_map.mp hmem
      obtain ⟨d, rfl⟩ := hn t' ht'
      exact ⟨d.plain, Term.eq_value_of_unplaced heq.symm⟩
    | _ => cases h
  | measure qubit clbit position guard =>
    cases m with
    | measure qubit' clbit' position' guard' => trivial
    | _ => cases h
  | barrier position operands =>
    cases m with
    | barrier position' operands' => trivial
    | _ => cases h
  | _ => exact hn.elim

theorem IsNumeric.expansion?_unplaced (h : n.IsNumeric) (lib : Library) (home : CircuitId) (regs : List Register)
    (gates : List GateDef) :
    n.unplaced.expansion? lib home regs gates = n.expansion? lib home regs gates := by
  rw [expansion?, expansion?, h.effect?_unplaced, unplaced, guardOf?_change]

end Node

/-! ## Declared gates -/

namespace GateDef

/-- A declaration whose statements have numbers as parameters. -/
def IsNumeric (g : GateDef) : Prop := ∀ n ∈ g.body, n.IsNumeric

theorem IsNumeric.of_unplaced {g h : GateDef} (hh : h.IsNumeric) (heq : g.unplaced = h.canonical) : g.IsNumeric := by
  intro n hn
  have hbody : g.body.map Node.unplaced = h.body.map Node.canonical := congrArg GateDef.body heq
  have hmem : n.unplaced ∈ h.body.map Node.canonical := hbody ▸ mem_map_of_mem hn
  obtain ⟨m, hm, hmn⟩ := mem_map.mp hmem
  exact (hh m hm).of_unplaced hmn.symm

end GateDef

variable {f : GateDef → GateDef}

/-- The names of declarations have nothing to do with their places. -/
theorem findGate?_map (hf : ∀ g, (f g).name = g.name) (gates : List GateDef) (name : String) :
    findGate? (gates.map f) name = (findGate? gates name).map f := by
  unfold findGate?
  rw [find?_map]
  refine congrArg (Option.map f) (congrArg (List.find? · gates) (funext fun g => ?_))
  rw [Function.comp_apply, hf]

theorem takes_map (hname : ∀ g, (f g).name = g.name) (hparams : ∀ g, (f g).params = g.params)
    (hargs : ∀ g, (f g).args = g.args) {lib : Library} {gates : List GateDef} {name : String} {params operands : Nat} :
    Takes lib (gates.map f) name params operands ↔ Takes lib gates name params operands := by
  unfold Takes
  rw [findGate?_map hname]
  cases findGate? gates name with
  | none => exact Iff.rfl
  | some g =>
    rw [Option.map_some]
    dsimp only
    rw [hparams, hargs]

namespace Program

variable {lib : Library} {home : CircuitId} {gates : List GateDef}

theorem expansion?_unplaced (h : ∀ g ∈ gates, g.IsNumeric) :
    expansion? lib home (gates.map GateDef.unplaced) = expansion? lib home gates := by
  induction gates with
  | nil => rfl
  | cons g gates ih =>
    rw [forall_mem_cons] at h
    funext name values bits
    have hbody : ∀ call : String → List Float → List Bit → Option (List Instruction), ∀ env formals,
        (g.unplaced.body.mapM fun n => n.effect?.bind (Effect.inside? home call env formals)) =
          g.body.mapM fun n => n.effect?.bind (Effect.inside? home call env formals) := by
      intro call env formals
      rw [GateDef.unplaced, mapM_map]
      refine mapM_congr fun n hn => ?_
      rw [Function.comp_apply, (h.1 n hn).effect?_unplaced]
    rw [map_cons, expansion?, expansion?, ih h.2, hbody]
    rfl

/-- A program in which all parameters are numbers. -/
structure IsNumeric (p : Program) : Prop where
  gates : ∀ g ∈ p.gates, g.IsNumeric
  body : ∀ n ∈ p.body, n.IsNumeric

variable {p q : Program}

theorem IsNumeric.of_unplaced (hp : p.IsNumeric) (h : q.unplaced = p.canonical) : q.IsNumeric := by
  obtain ⟨-, -, -, -, hgates, hbody⟩ := unplaced_eq_canonical_iff.mp h
  refine ⟨fun g hg => ?_, fun n hn => ?_⟩
  · have hmem : g.unplaced ∈ p.gates.map GateDef.canonical := hgates ▸ mem_map_of_mem hg
    obtain ⟨g', hg', heq⟩ := mem_map.mp hmem
    exact (hp.gates g' hg').of_unplaced heq.symm
  · have hmem : n.unplaced ∈ p.body.map Node.canonical := hbody ▸ mem_map_of_mem hn
    obtain ⟨m, hm, heq⟩ := mem_map.mp hmem
    exact (hp.body m hm).of_unplaced heq.symm

theorem IsNumeric.instructions?_unplaced (h : p.IsNumeric) (regs : List Register) :
    p.unplaced.instructions? lib home regs = p.instructions? lib home regs := by
  have hgates : ∀ n : Node, n.expansion? lib home regs p.unplaced.gates = n.expansion? lib home regs p.gates := by
    intro n
    have hcall : expansion? lib home p.unplaced.gates.reverse = expansion? lib home p.gates.reverse := by
      rw [unplaced, ← map_reverse]
      exact expansion?_unplaced fun g hg => h.gates g (mem_reverse.mp hg)
    have houtside : ∀ e guard, Effect.outside? lib home regs p.unplaced.gates guard e =
        Effect.outside? lib home regs p.gates guard e := by
      intro e guard
      cases e with
      | apply name params targets => rw [Effect.outside?, Effect.outside?, hcall]
      | _ => rfl
    simp only [Node.expansion?, houtside]
  have hbody : p.unplaced.body.mapM (Node.expansion? lib home regs p.unplaced.gates) =
      p.body.mapM (Node.expansion? lib home regs p.gates) := by
    rw [unplaced, mapM_map]
    refine mapM_congr fun n hn => ?_
    rw [Function.comp_apply]
    exact (hgates n.unplaced).trans ((h.body n hn).expansion?_unplaced lib home regs p.gates)
  rw [instructions?, instructions?, hbody]

theorem suits_unplaced {regs : List (String × Int)} {e : Effect} :
    e.Suits lib (gates.map GateDef.unplaced) regs ↔ e.Suits lib gates regs := by
  cases e with
  | apply name params targets =>
    exact and_congr (@takes_map GateDef.unplaced (fun _ => rfl) (fun _ => rfl) (fun _ => rfl) ..) Iff.rfl
  | _ => exact Iff.rfl

theorem isValid_unplaced {e : Effect} : e.IsValid lib p.unplaced ↔ e.IsValid lib p := by
  cases e with
  | apply name params targets => exact @suits_unplaced lib p.gates p.qregs (.apply name params targets)
  | _ => exact Iff.rfl

theorem IsNumeric.isValid_of_unplaced (h : p.IsNumeric) (hvalid : p.unplaced.IsValid lib) : p.IsValid lib where
  version := hvalid.version
  includes i hi := hvalid.includes i.unplaced (mem_map_of_mem hi)
  gates g hg n hn e he := by
    have hmem : n.unplaced ∈ g.unplaced.body := mem_map_of_mem hn
    refine suits_unplaced.mp (hvalid.gates g.unplaced (mem_map_of_mem hg) _ hmem e ?_)
    rw [(h.gates g hg n hn).effect?_unplaced]
    exact he
  body n hn e he := by
    refine isValid_unplaced.mp (hvalid.body n.unplaced (mem_map_of_mem hn) e ?_)
    rw [(h.body n hn).effect?_unplaced]
    exact he

end Program

/-! ## Read lines -/

/-- The lines of a readable program of numbers become a circuit that is what the program comes to. -/
theorem Action.returns_ofText_lines {lib : Library} (hlib : lib.HasPrimitives) {p : Program} (hp : p.Readable lib)
    (hsizes : ∀ r ∈ p.qregs ++ p.cregs, Text.isShort r.2) (hnumeric : p.IsNumeric)
    (hvalid : p.canonical.IsValid lib) {ds : List (Bool × String × Int)} (hds : p.Lists ds)
    {gateTexts lines : List String} (hgateTexts : p.gates.mapM GateDef.render = .ok gateTexts)
    (hlines : p.body.mapM Node.statementLine = .ok lines) {regs : List Register} (hregs : p.Declares regs)
    (s : Store) {xs : List Instruction} (hxs : p.canonical.instructions? lib s.circuits.size regs = some xs) :
    ∃ (q : Program) (x : Circuit) (t : Store),
      (ofText lib (Text.join "\n" (p.linesOf ds gateTexts lines) ++ "\n")).Returns s s.circuits.size t ∧
      q.IsLowered lib s s.circuits.size t x xs ∧ q.unplaced = p.canonical ∧ x.registers = regs := by
  obtain ⟨q, hparse, hq⟩ := hp.parse_lines hsizes hds hgateTexts hlines
  have hqnumeric := hnumeric.of_unplaced hq
  obtain ⟨-, -, hqregs, hcregs, -⟩ := Program.unplaced_eq_canonical_iff.mp hq
  have hdeclares : q.Declares regs := by
    unfold Program.Declares
    rw [hqregs, hcregs]
    exact hregs
  have hmeaning : q.instructions? lib s.circuits.size regs = some xs := by
    rw [← hqnumeric.instructions?_unplaced, hq, hxs]
  have hends := ends_lower (s := s) hlib (Program.resolved_of_parse hlib hparse)
    (hqnumeric.isValid_of_unplaced (hq ▸ hvalid)) (Program.isShort_of_parse hparse).1 none
  have hreturns : (lower lib none q).Attains s fun c t => ∃ x ys, q.IsLowered lib s c t x ys := by
    refine hends.imp (fun _ _ h => h) fun _ _ h => ?_
    have hnone := h.2 regs hdeclares
    rw [hmeaning] at hnone
    cases hnone
  obtain ⟨c, t, hc, x, ys, hlowered⟩ := hreturns.returns
  obtain rfl := hlowered.number
  have hsame : x.registers = regs := hlowered.registers.unique hdeclares
  have hys := hlowered.meaning
  rw [hsame, hmeaning] at hys
  obtain rfl := Option.some.inj hys
  have hlift := returns_lift s hparse
  exact ⟨q, x, t, hlift.bind hc, hlowered, hq, hsame⟩

end QasmCircuit
