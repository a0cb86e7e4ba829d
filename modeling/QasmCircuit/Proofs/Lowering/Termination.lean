import Mathlib.Order.WellFounded
import Mathlib.Logic.Relation
import QasmCircuit.Proofs.Circuit.WellFormed
import QasmCircuit.Proofs.Program.Resolved

/-!
# Declared gates and the gates that they call

A declared gate is built with the gates that its statements call (`Program.Instantiates`). A statement with a name
calls a gate of the library or one that was declared before. A primitive has no name of its own there: `U` and `CX` are
looked up as `u3` and `cx`, and a library without these families leaves the names free to be declared, even by the
declaration that the primitive stands in.

> `Program.instantiates_wellFounded`: where no declaration uses a primitive that stands for itself or for a later
> declaration, every declared gate is built in finitely many steps, at most one level deep for each declaration.
-/

namespace QasmCircuit

open Outcome Program Source List

variable {gates before after : List GateDef} {n : Node} {lib : Library} {p : Program} {name text : String}
  {env : Tree.Env}

/-- The gate that a statement calls, as it is looked up. -/
def Node.gateName? : Node → Option String
  | .call name _ _ _ _ => some name
  | .primitive op _ _ _ _ => (libraryName op).toOption
  | .gate name _ _ _ _ => some name
  | _ => none

def Node.primitiveName? : Node → Option String
  | .primitive op _ _ _ _ => (libraryName op).toOption
  | _ => none

theorem Node.gateName?_of_primitiveName? (h : n.primitiveName? = some name) :
    n.gateName? = some name := by
  cases n with
  | primitive op first second guard position => exact h
  | _ => cases h

/-- A declaration uses a primitive that stands for another declaration, or for itself. -/
def GateDef.UsesAsPrimitive (g h : GateDef) : Prop := ∃ n ∈ g.body, n.primitiveName? = some h.name

instance (g h : GateDef) : Decidable (g.UsesAsPrimitive h) :=
  inferInstanceAs (Decidable (∃ n ∈ g.body, n.primitiveName? = some h.name))

namespace Program

/-- Building one declared gate builds another one. -/
def Instantiates (p : Program) (g h : GateDef) : Prop :=
  g ∈ p.gates ∧ ∃ n ∈ g.body, ∃ name ∈ n.gateName?, findGate? p.gates name = some h

/-- No declaration uses a primitive that stands for itself or for a later declaration. -/
def PrimitivesInOrder (p : Program) : Prop :=
  (∀ g ∈ p.gates, ¬ g.UsesAsPrimitive g) ∧ p.gates.Pairwise fun g h => ¬ g.UsesAsPrimitive h

instance (p : Program) : Decidable p.PrimitivesInOrder :=
  inferInstanceAs (Decidable (_ ∧ _))

variable {g : GateDef}

theorem PrimitivesInOrder.not_usesAsPrimitive (h : p.PrimitivesInOrder)
    (hsplit : p.gates = before ++ g :: after) : ∀ g' ∈ g :: after, ¬ g.UsesAsPrimitive g' := by
  have hlater := h.2
  rw [hsplit, pairwise_append, pairwise_cons] at hlater
  exact forall_mem_cons.mpr ⟨h.1 g (by simp [hsplit]), hlater.2.1.1⟩

/-! ## Calls go to earlier declarations -/

/-- A declaration under a name of its own, whose statements call what is known before it, or are primitives. -/
structure Follows (lib : Library) (before : List GateDef) (g : GateDef) : Prop where
  fresh : IsFresh lib before g.name
  calls : ∀ n ∈ g.body, ∀ name ∈ n.gateName?, IsKnown lib before name ∨ n.primitiveName? = some name

theorem calls_of_resolves {scope : GateScope} {s : BodyStatement} (h : s.Resolves lib { gates := gates } scope n) :
    ∀ name ∈ n.gateName?, IsKnown lib gates name ∨ n.primitiveName? = some name := by
  intro name hname
  cases h with
  | operation hop =>
    cases hop with
    | call hknown hparams hoperands =>
      rw [Node.gateName?, Option.mem_some_iff] at hname
      exact .inl (hname ▸ hknown)
    | _ => exact .inr hname
  | barrier hoperands => cases hname

theorem follows_of_declares {d : Declaration} (h : d.Declares lib gates g) : Follows lib gates g := by
  cases h with
  | gate hfresh hparams hargs hbody =>
    refine ⟨hfresh, fun n hn => ?_⟩
    obtain ⟨s, -, hs⟩ := exists_of_forall₂ hbody n hn
    exact calls_of_resolves hs

theorem follows_of_parse (h : parse lib text = .ok p) :
    ∀ before g after, p.gates = before ++ g :: after → Follows lib before g :=
  gates_of_parse (fun _ _ _ _ hg => follows_of_declares hg) h

theorem ownNames_of_follows (h : ∀ before g after, p.gates = before ++ g :: after → Follows lib before g) :
    OwnNames lib p.gates := by
  intro g hg
  obtain ⟨before, after, hsplit⟩ := append_of_mem hg
  exact (h before g after hsplit).fresh.2

/-- A declared gate only calls gates that were declared before it. -/
theorem mem_before_of_instantiates
    (hfollows : ∀ before g after, p.gates = before ++ g :: after → Follows lib before g) (horder : p.PrimitivesInOrder)
    (hsplit : p.gates = before ++ g :: after)
    (hn : n ∈ g.body) (hname : name ∈ n.gateName?) {h : GateDef}
    (hfind : findGate? p.gates name = some h) : h ∈ before := by
  rcases (hfollows before g after hsplit).calls n hn name hname with hknown | hprimitive
  · exact mem_of_find?_eq_some (findGate?_before hsplit (ownNames_of_follows hfollows) hknown hfind)
  · have hmem := mem_of_find?_eq_some hfind
    rw [hsplit, mem_append] at hmem
    refine hmem.resolve_right fun hlater => horder.not_usesAsPrimitive hsplit h hlater ⟨n, hn, ?_⟩
    rw [hprimitive, findGate?_name hfind]

/-- A primitive stands for one of two gates. -/
theorem eq_or_eq_of_primitiveName? (h : n.primitiveName? = some name) : name = "u3" ∨ name = "cx" := by
  cases n with
  | primitive op first second guard position =>
    have hop := toOption_eq_some.mp h
    unfold libraryName at hop
    split at hop
    · exact .inl (Except.ok.inj hop).symm
    · split at hop
      · exact .inr (Except.ok.inj hop).symm
      · cases hop
  | _ => cases h

/-- Gates of the library are no declarations, so with `u3` and `cx` in it no primitive stands for a declaration. -/
theorem primitivesInOrder_of_contains (hown : OwnNames lib p.gates)
    (hunitary : lib.contains "u3") (hnot : lib.contains "cx") : p.PrimitivesInOrder := by
  have hnone : ∀ g : GateDef, ∀ h ∈ p.gates, ¬ g.UsesAsPrimitive h := by
    intro g h hh huses
    have hfree : lib.contains h.name = false := (hown h hh).1
    obtain ⟨n, -, hn⟩ := huses
    rcases eq_or_eq_of_primitiveName? hn with heq | heq
    · exact absurd hfree (by rw [heq, hunitary]; decide)
    · exact absurd hfree (by rw [heq, hnot]; decide)
  refine ⟨fun g hg => hnone g g hg, ?_⟩
  exact pairwise_of_forall_mem_list fun g _ h hh => hnone g h hh

/-- Every declaration is accessible: the declarations that it calls stand before it. -/
theorem acc_instantiates (hfollows : ∀ before g after, p.gates = before ++ g :: after → Follows lib before g)
    (horder : p.PrimitivesInOrder) (k : Nat) :
    ∀ before g after, p.gates = before ++ g :: after → before.length = k → Acc (flip p.Instantiates) g := by
  -- The induction is on the number of declarations before.
  induction k using Nat.strong_induction_on with
  | _ k ih =>
    intro before g after hsplit hk
    refine Acc.intro g fun h hcall => ?_
    obtain ⟨-, n, hn, name, hname, hfind⟩ := hcall
    obtain ⟨earlier, later, rfl⟩ := append_of_mem (mem_before_of_instantiates hfollows horder hsplit hn hname hfind)
    rw [append_assoc, cons_append] at hsplit
    refine ih earlier.length ?_ earlier h _ hsplit rfl
    simp only [length_append, length_cons] at hk
    omega

end Program

/-! ## The depth of building -/

namespace Action

variable {home : CircuitId}

theorem gateName?_of_callParts {parts : String × List Float × List Term}
    (h : callParts env n = .ok parts) : n.gateName? = some parts.1 := by
  cases n with
  | call name position params operands guard =>
    obtain ⟨values, -, hparts⟩ := bind_eq_ok.mp h
    cases hparts
    rfl
  | primitive op first second guard position =>
    obtain ⟨name, hname, h⟩ := bind_eq_ok.mp h
    obtain ⟨refs, -, h⟩ := bind_eq_ok.mp h
    obtain ⟨values, -, hparts⟩ := bind_eq_ok.mp h
    cases hparts
    exact toOption_eq_some.mpr hname
  | gate name position params args body =>
    obtain ⟨values, -, hparts⟩ := bind_eq_ok.mp h
    cases hparts
    rfl
  | _ => cases h

theorem forM_congr {α : Type} {f f' : α → Action PUnit} {as : List α} (h : ∀ a ∈ as, f a = f' a) :
    as.forM f = as.forM f' := by
  induction as with
  | nil => rfl
  | cons a as ih =>
    rw [forall_mem_cons] at h
    rw [forM_cons, forM_cons, h.1, ih h.2]

/-- A statement is added in the same way by two ways of building gates that agree on the gate that it calls. -/
theorem buildStatement_congr {nested nested' : GateDef → List Argument → List Argument → Action InstructionId}
    {gate : InstructionId} {formals : List (String × Argument)}
    (h : ∀ name ∈ n.gateName?, ∀ g, findGate? gates name = some g → nested g = nested' g) :
    buildStatement nested gates gate env formals n = buildStatement nested' gates gate env formals n := by
  unfold buildStatement
  split
  · rfl
  · cases hparts : callParts env n with
    | error e => rfl
    | ok parts =>
      have hname := gateName?_of_callParts hparts
      obtain ⟨name, values, operands⟩ := parts
      refine congrArg (lift (operands.mapM (boundOperand formals)) >>= ·) (funext fun bits => ?_)
      cases hfind : findGate? gates name with
      | none => rfl
      | some g =>
        dsimp only
        rw [h name hname g hfind]

/-- More depth than there are declarations before a gate makes no difference. -/
theorem buildComposite_eq_of_length_lt
    (hfollows : ∀ before g after, p.gates = before ++ g :: after → Follows lib before g) (horder : p.PrimitivesInOrder)
    (k : Nat) : ∀ before g after, p.gates = before ++ g :: after → before.length = k → ∀ depth, k < depth →
      buildComposite home p.gates depth g = buildComposite home p.gates (k + 1) g := by
  induction k using Nat.strong_induction_on with
  | _ k ih =>
    intro before g after hsplit hk depth hdepth
    obtain ⟨d, rfl⟩ : ∃ d, depth = d + 1 := ⟨depth - 1, by omega⟩
    -- Both depths are enough for every gate that a statement calls.
    have hnested : ∀ n ∈ g.body, ∀ name ∈ n.gateName?, ∀ h, findGate? p.gates name = some h →
        buildComposite home p.gates d h = buildComposite home p.gates k h := by
      intro n hn name hname h hfind
      obtain ⟨earlier, later, rfl⟩ := append_of_mem (mem_before_of_instantiates hfollows horder hsplit hn hname hfind)
      rw [append_assoc, cons_append] at hsplit
      simp only [length_append, length_cons] at hk
      have hless : earlier.length < k := by omega
      calc buildComposite home p.gates d h
          = buildComposite home p.gates (earlier.length + 1) h := ih _ hless earlier h _ hsplit rfl d (by omega)
        _ = buildComposite home p.gates k h := (ih _ hless earlier h _ hsplit rfl k hless).symm
    funext values operands
    unfold buildComposite
    refine congrArg (newComposite home _ operands (.ok values) >>= ·) (funext fun i => ?_)
    refine congrArg (· >>= fun _ => pure i) (forM_congr fun n hn => ?_)
    exact buildStatement_congr fun name hname h hfind => hnested n hn name hname h hfind

end Action

/-! ## The main statement -/

namespace Program

/-- Where no declaration of a program that was read uses a primitive that stands for itself or for a later declaration,
no gate calls itself through others, and the depth that is allowed when a declared gate is built is never reached. With
`u3` and `cx` in the library there is no other use of the primitives. -/
theorem instantiates_wellFounded {text : String} (h : parse lib text = .ok p) :
    (lib.contains "u3" = true → lib.contains "cx" = true → p.PrimitivesInOrder) ∧
    (p.PrimitivesInOrder → WellFounded (flip p.Instantiates) ∧ (∀ g, ¬ Relation.TransGen p.Instantiates g g) ∧
      ∀ g ∈ p.gates, ∀ home depth, p.gates.length < depth →
        Action.buildComposite home p.gates depth g = Action.buildComposite home p.gates p.gates.length g) := by
  have hfollows := follows_of_parse h
  refine ⟨primitivesInOrder_of_contains (ownNames_of_follows hfollows), fun horder => ?_⟩
  have hwf : WellFounded (flip p.Instantiates) := by
    refine ⟨fun g => Acc.intro g fun h hcall => ?_⟩
    obtain ⟨-, n, -, name, -, hfind⟩ := hcall
    obtain ⟨before, after, hsplit⟩ := List.append_of_mem (List.mem_of_find?_eq_some hfind)
    exact acc_instantiates hfollows horder _ before h after hsplit rfl
  refine ⟨hwf, fun g hcycle => ?_, fun g hg home depth hdepth => ?_⟩
  · exact hwf.transGen.irrefl.irrefl g (Relation.transGen_swap.mpr hcycle)
  · obtain ⟨before, after, hsplit⟩ := List.append_of_mem hg
    have hlength := congrArg List.length hsplit
    simp only [List.length_append, List.length_cons] at hlength
    have heq := @Action.buildComposite_eq_of_length_lt lib p home hfollows horder _ before g after hsplit rfl
    rw [heq depth (by omega), heq p.gates.length (by omega)]

/-- The description of a library with a single gate. -/
def flipData : Datum :=
  .mapping [(.text "families", .mapping [(.text "x", .mapping [(.text "arity", .int 1)])])]

def flips : Library where
  families := [⟨"x", [], 1, "x", [], none⟩]

theorem ofDatum_flipData : Library.ofDatum flipData = .ok flips :=
  toOption_eq_some.mp (by decide +kernel)

/-- A program declares `u3` itself, without the primitive, and uses the primitive afterwards. -/
theorem instantiates_wellFounded_declared_unitary : ∃ p,
    parse flips ("OPENQASM 2.0; gate u3(a,b,c) q\x7bx q;\x7d gate f q,r\x7bU(1,2,3) q; u3(0,0,0) r;\x7d " ++
      "gate g q,r\x7bf r,q; U(0,0,0) q;\x7d qreg q[2]; g q[0],q[1];") = .ok p ∧
    p.PrimitivesInOrder ∧ WellFounded (flip p.Instantiates) := by
  have hchecked : (parse flips ("OPENQASM 2.0; gate u3(a,b,c) q\x7bx q;\x7d " ++
      "gate f q,r\x7bU(1,2,3) q; u3(0,0,0) r;\x7d gate g q,r\x7bf r,q; U(0,0,0) q;\x7d qreg q[2]; g q[0],q[1];")
        ).toOption.any (fun p => decide p.PrimitivesInOrder) = true := by
    decide +kernel
  obtain ⟨p, hp, horder⟩ := (Option.any_eq_true _ _).mp hchecked
  have hparse := toOption_eq_some.mp hp
  have horder := of_decide_eq_true horder
  exact ⟨p, hparse, horder, ((instantiates_wellFounded hparse).2 horder).1⟩

/-- The text of a program whose declaration of `u3` uses the primitive that stands for it. -/
def selfCall : String := "OPENQASM 2.0; gate u3(a,b,c) q \x7b U(a,b,c) q; \x7d qreg q[1]; u3(1,2,3) q[0];"

/-- That program is read with a library without `u3`, its declaration calls itself, and building it never ends. -/
theorem instantiates_self : Library.ofDatum flipData = .ok flips ∧ ∃ p g, parse flips selfCall = .ok p ∧
    p.Instantiates g g ∧ ((Action.ofText flips selfCall).outcome {}).1 = .error .selfContaining := by
  have hchecked : (parse flips selfCall).toOption.any (fun p => (findGate? p.gates "u3").any fun g =>
      decide (g.UsesAsPrimitive g)) = true := by
    decide +kernel
  obtain ⟨p, hp, hfound⟩ := (Option.any_eq_true _ _).mp hchecked
  obtain ⟨g, hfind, huses⟩ := (Option.any_eq_true _ _).mp hfound
  obtain ⟨n, hn, hname⟩ := of_decide_eq_true huses
  have hfindName : findGate? p.gates g.name = some g := by rwa [findGate?_name hfind]
  have hcalls : p.Instantiates g g :=
    ⟨List.mem_of_find?_eq_some hfind, n, hn, g.name, Node.gateName?_of_primitiveName? hname, hfindName⟩
  exact ⟨ofDatum_flipData, p, g, toOption_eq_some.mp hp, hcalls, by decide +kernel⟩

end Program

end QasmCircuit
