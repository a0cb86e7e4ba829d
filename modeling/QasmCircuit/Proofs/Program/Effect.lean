import Mathlib.Data.List.Nodup
import QasmCircuit.Lowering
import QasmCircuit.Proofs.Program.Parameter

/-!
# What statements do

A statement applies a gate, places a barrier or measures (`Node.effect?`); a primitive gate stands for a gate of the
library. Where a statement stands has no part in its effect.

The checks of a program ask two things of the effects, and nothing else: that every gate gets as many parameters and
operands as it takes, and that the operands go together (`Program.validate_iff`).
-/

namespace QasmCircuit

open List

variable {name op : String} {lib : Library} {gates : List GateDef} {params : Nat} {α : Type} {ts : List Term}

/-- What an operand names: a register, an argument of a gate, or a bit of a register. -/
abbrev Target := String × Option Int

def Ref.target (r : Ref) : Target := (r.name, r.index)

/-- What an operand names. -/
def Term.target? (t : Term) : Option Target := t.reference.toOption.map Ref.target

/-- What an operand of a primitive gate names. -/
def Term.primitiveTarget? (t : Term) : Option Target := t.toQuantum.toOption.map Ref.target

/-- What a statement does. -/
inductive Effect where
  | apply (gate : String) (params : List Term) (targets : List Target)
  | barrier (targets : List Target)
  | measure (qubit clbit : Target)

/-- The effect of a statement. Declarations and comments have none. -/
def Node.effect? : Node → Option Effect
  | .call name _ params operands _ => (operands.mapM Term.target?).map (.apply name params)
  | .primitive op first second _ _ => do
    let name ← (Program.libraryName op).toOption
    let targets ← (primitiveOperands op first second).mapM Term.primitiveTarget?
    pure (.apply name (primitiveParams op first) targets)
  | .measure qubit clbit _ _ => do
    let q ← qubit.target?
    let c ← clbit.target?
    pure (.measure q c)
  | .barrier _ operands => (operands.mapM Term.target?).map .barrier
  | _ => none

/-! ## Operands that go together -/

/-- No target is named twice, on its own or as part of a whole register. -/
def Target.Distinct (ts : List Target) : Prop :=
  ts.Nodup ∧ ∀ a ∈ ts, ∀ b ∈ ts, a.2 = none → b.2.isSome → b.1 ≠ a.1

/-- All whole registers among some targets have one size. -/
def Target.OneSize (regs : List (String × Int)) (ts : List Target) : Prop :=
  ∀ a ∈ ts, ∀ b ∈ ts, a.2 = none → b.2 = none → ∀ m n, Program.sizeOf? regs a.1 = some m →
    Program.sizeOf? regs b.1 = some n → m = n

/-- A gate takes a number of parameters and a number of operands. -/
def Takes (lib : Library) (gates : List GateDef) (name : String) (params operands : Nat) : Prop :=
  match findGate? gates name with
  | some g => params = g.params.length ∧ operands = g.args.length
  | none => ∃ f, lib.find? name = some f ∧ params = f.params.length ∧ (operands : Int) = f.arity

/-- A gate of the library or a declared one. -/
def IsKnown (lib : Library) (gates : List GateDef) (name : String) : Prop :=
  lib.contains name ∨ (findGate? gates name).isSome

/-- A library has the gates that the primitive ones stand for, and does not give the names of these to others. -/
structure Library.HasPrimitives (lib : Library) : Prop where
  unitary : ∃ f, lib.find? "u3" = some f ∧ f.params.length = 3 ∧ f.arity = 1
  controlledNot : ∃ f, lib.find? "cx" = some f ∧ f.params.length = 0 ∧ f.arity = 2
  free : lib.find? "U" = none ∧ lib.find? "CX" = none

namespace Effect

/-- An applied gate is known. -/
def IsKnown (lib : Library) (gates : List GateDef) : Effect → Prop
  | .apply name _ _ => QasmCircuit.IsKnown lib gates name
  | _ => True

/-- An applied gate gets what it takes, and its operands go together. -/
def Suits (lib : Library) (gates : List GateDef) (regs : List (String × Int)) : Effect → Prop
  | .apply name params targets => Takes lib gates name params.length targets.length ∧
      Target.Distinct targets ∧ Target.OneSize regs targets
  | _ => True

/-- What the checks ask of a statement of a program. -/
def IsValid (lib : Library) (p : Program) : Effect → Prop
  | .apply name params targets => Suits lib p.gates p.qregs (.apply name params targets)
  | .barrier targets => Target.Distinct targets
  | .measure qubit clbit => qubit.2 = none → clbit.2 = none → ∀ m n,
      Program.sizeOf? p.qregs qubit.1 = some m → Program.sizeOf? p.cregs clbit.1 = some n → m = n

end Effect

namespace Program

open Outcome

/-- What the checks ask of a program. -/
structure IsValid (lib : Library) (p : Program) : Prop where
  version : p.version = "2.0"
  includes : ∀ i ∈ p.includes, i.path = "qelib1.inc"
  gates : ∀ g ∈ p.gates, ∀ n ∈ g.body, ∀ e ∈ n.effect?, e.Suits lib p.gates []
  body : ∀ n ∈ p.body, ∀ e ∈ n.effect?, e.IsValid lib p

/-! ## Single checks -/

variable {problem : Problem} {regs : List (String × Int)} {position : Position} {refs : List Ref}

theorem failAt_eq_ok {a : α} : (failAt problem position : Except Fault α) = .ok a ↔ False :=
  iff_of_false (fun h => by cases h) id

theorem ite_fail_eq_ok {c : Prop} [Decidable c] {x : Except Fault Unit} :
    (if c then failAt problem position else x) = .ok () ↔ ¬ c ∧ x = .ok () := by
  by_cases hc : c
  · rw [if_pos hc, failAt_eq_ok]
    exact iff_of_false id fun h => h.1 hc
  · rw [if_neg hc]
    exact ⟨fun h => ⟨hc, h⟩, fun h => h.2⟩

theorem checkDistinct_eq_ok {whole : List String} {seen : List Target} :
    checkDistinct name position whole seen refs = .ok () ↔
      (∀ r ∈ refs, r.target ∉ seen) ∧ (refs.map Ref.target).Nodup ∧ ∀ r ∈ refs, r.index.isSome → r.name ∉ whole := by
  induction refs generalizing seen with
  | nil => exact iff_of_true rfl ⟨forall_mem_nil _, nodup_nil, forall_mem_nil _⟩
  | cons r refs ih =>
    have hhead : (seen.contains (r.name, r.index) || (r.index.isSome && whole.contains r.name)) ↔
        r.target ∈ seen ∨ (r.index.isSome ∧ r.name ∈ whole) := by
      rw [Bool.or_eq_true, Bool.and_eq_true, contains_iff_mem, contains_iff_mem]
      exact Iff.rfl
    rw [checkDistinct, ite_fail_eq_ok, hhead, ih, forall_mem_cons, map_cons, nodup_cons, forall_mem_cons]
    constructor
    · rintro ⟨hr, hseen, hnodup, hwhole⟩
      rw [not_or] at hr
      refine ⟨⟨hr.1, fun q hq => fun h => hseen q hq (mem_cons_of_mem _ h)⟩, ⟨fun h => ?_, hnodup⟩,
        fun hi hmem => hr.2 ⟨hi, hmem⟩, hwhole⟩
      obtain ⟨q, hq, hqr⟩ := mem_map.mp h
      exact hseen q hq (hqr ▸ mem_cons_self)
    · rintro ⟨⟨hr, hseen⟩, ⟨hfresh, hnodup⟩, hindex, hwhole⟩
      refine ⟨?_, fun q hq h => ?_, hnodup, hwhole⟩
      · rintro (h | h)
        · exact hr h
        · exact hindex h.1 h.2
      · rcases mem_cons.mp h with h | h
        · exact hfresh (mem_map.mpr ⟨q, hq, h⟩)
        · exact hseen q hq h

theorem distinctOperands_eq_ok :
    distinctOperands name position refs = .ok () ↔ Target.Distinct (refs.map Ref.target) := by
  rw [distinctOperands, checkDistinct_eq_ok]
  constructor
  · rintro ⟨-, hnodup, hwhole⟩
    refine ⟨hnodup, fun a ha b hb hnone hsome heq => ?_⟩
    obtain ⟨q, hq, rfl⟩ := mem_map.mp ha
    obtain ⟨r, hr, rfl⟩ := mem_map.mp hb
    have hindex : q.index.isNone := Option.isNone_iff_eq_none.mpr hnone
    exact hwhole r hr hsome (mem_map.mpr ⟨q, mem_filter.mpr ⟨hq, hindex⟩, heq.symm⟩)
  · rintro ⟨hnodup, hapart⟩
    refine ⟨fun _ _ => not_mem_nil, hnodup, fun r hr hsome hmem => ?_⟩
    obtain ⟨q, hq, hname⟩ := mem_map.mp hmem
    rw [mem_filter] at hq
    exact hapart q.target (mem_map_of_mem hq.1) r.target (mem_map_of_mem hr)
      (Option.isNone_iff_eq_none.mp hq.2) hsome hname.symm

theorem eraseDups_of_forall_eq [BEq α] [LawfulBEq α] {as : List α} {a : α} (ha : a ∈ as)
    (h : ∀ b ∈ as, b = a) : as.eraseDups = [a] := by
  cases as with
  | nil => exact absurd ha not_mem_nil
  | cons b rest =>
    have hb := h b mem_cons_self
    have hrest : (rest.filter fun c => !c == b) = [] := by
      refine filter_eq_nil_iff.mpr fun c hc => ?_
      rw [h c (mem_cons_of_mem b hc), hb, beq_self_eq_true]
      exact Bool.false_ne_true
    rw [eraseDups_cons, hrest, hb]
    rfl

theorem length_sortedSizes_le {sizes : List Int} :
    ¬ 1 < (sortedSizes sizes).length ↔ ∀ a ∈ sizes, ∀ b ∈ sizes, a = b := by
  rw [sortedSizes, length_mergeSort, Nat.not_lt]
  constructor
  · intro hle a ha b hb
    rw [← mem_eraseDups] at ha hb
    cases heq : sizes.eraseDups with
    | nil =>
      rw [heq] at ha
      exact absurd ha not_mem_nil
    | cons c rest =>
      rw [heq, length_cons] at hle
      have hrest : rest = [] := eq_nil_of_length_eq_zero (by omega)
      rw [heq, hrest, mem_singleton] at ha hb
      rw [ha, hb]
  · intro hall
    cases sizes with
    | nil => exact Nat.zero_le 1
    | cons a rest =>
      rw [eraseDups_of_forall_eq mem_cons_self fun b hb => hall b hb a mem_cons_self]
      exact Nat.le_refl 1

theorem oneSize_iff :
    ¬ 1 < (sortedSizes ((refs.filter fun r => r.index.isNone).filterMap fun r => sizeOf? regs r.name)).length ↔
      Target.OneSize regs (refs.map Ref.target) := by
  rw [length_sortedSizes_le]
  constructor
  · intro h a ha b hb hnone hnone' m n hm hn
    obtain ⟨q, hq, rfl⟩ := mem_map.mp ha
    obtain ⟨r, hr, rfl⟩ := mem_map.mp hb
    exact h m (mem_filterMap.mpr ⟨q, mem_filter.mpr ⟨hq, Option.isNone_iff_eq_none.mpr hnone⟩, hm⟩) n
      (mem_filterMap.mpr ⟨r, mem_filter.mpr ⟨hr, Option.isNone_iff_eq_none.mpr hnone'⟩, hn⟩)
  · intro h m hm n hn
    obtain ⟨q, hq, hm⟩ := mem_filterMap.mp hm
    obtain ⟨r, hr, hn⟩ := mem_filterMap.mp hn
    rw [mem_filter] at hq hr
    exact h q.target (mem_map_of_mem hq.1) r.target (mem_map_of_mem hr.1)
      (Option.isNone_iff_eq_none.mp hq.2) (Option.isNone_iff_eq_none.mp hr.2) m n hm hn

/-- The signature of a gate says what it takes. -/
def HasSignature (lib : Library) (gates : List GateDef) (name : String) (params operands : Nat) : Prop :=
  ∃ s, signature? lib gates name = some s ∧ params = s.params ∧ (operands : Int) = s.qubits

theorem checkCall_eq_ok {count : Nat} :
    checkCall lib gates regs name position params count (.ok refs) = .ok () ↔
      HasSignature lib gates name params count ∧ Target.Distinct (refs.map Ref.target) ∧
        Target.OneSize regs (refs.map Ref.target) := by
  unfold checkCall HasSignature
  cases signature? lib gates name with
  | none => exact iff_of_false (fun h => failAt_eq_ok.mp h) fun h => by obtain ⟨⟨s, hs, -⟩, -⟩ := h; cases hs
  | some s =>
    dsimp only
    rw [ite_fail_eq_ok, ite_fail_eq_ok, not_not, not_not, ← @distinctOperands_eq_ok name position, ← oneSize_iff]
    constructor
    · rintro ⟨hparams, hcount, hrest⟩
      obtain ⟨_, hrefs, hrest⟩ := bind_eq_ok.mp hrest
      cases hrefs
      obtain ⟨_, hdistinct, hsize⟩ := bind_eq_ok.mp hrest
      exact ⟨⟨s, rfl, hparams, hcount⟩, hdistinct, (ite_fail_eq_ok.mp hsize).1⟩
    · rintro ⟨⟨s', hs, hparams, hcount⟩, hdistinct, hsize⟩
      cases hs
      exact ⟨hparams, hcount, bind_eq_ok.mpr ⟨refs, rfl, bind_eq_ok.mpr ⟨(), hdistinct,
        ite_fail_eq_ok.mpr ⟨hsize, rfl⟩⟩⟩⟩

/-! ## The gates that primitive ones stand for -/

section

variable {g : GateDef} {operands : Nat} {p : Program}

/-- Declared gates have names of their own. -/
def OwnNames (lib : Library) (gates : List GateDef) : Prop :=
  ∀ g ∈ gates, lib.contains g.name = false ∧ g.name ≠ "U" ∧ g.name ≠ "CX"

theorem findGate?_eq_none (h : ∀ g ∈ gates, g.name ≠ name) : findGate? gates name = none :=
  find?_eq_none.mpr fun g hg hname => h g hg (beq_iff_eq.mp hname)

theorem OwnNames.findGate?_library (h : OwnNames lib gates) (hname : lib.contains name) : findGate? gates name = none :=
  findGate?_eq_none fun g hg hg' => by
    have hfalse := (h g hg).1
    rw [hg', hname] at hfalse
    cases hfalse

theorem findGate?_name (h : findGate? gates name = some g) : g.name = name :=
  beq_iff_eq.mp (@find?_some _ (fun g : GateDef => g.name == name) g gates h)

variable {before more : List GateDef} {targets : List Target} {e : Effect} {n : Node}

theorem findGate?_append (h : findGate? before name = some g) : findGate? (before ++ more) name = some g := by
  unfold findGate? at h ⊢
  rw [find?_append, h]
  rfl

/-- The gates that are known at a declaration were declared before it, or are gates of the library. -/
theorem findGate?_before (hsplit : gates = before ++ more) (hown : OwnNames lib gates)
    (hknown : IsKnown lib before name) (hg : findGate? gates name = some g) : findGate? before name = some g := by
  rcases hknown with hknown | hknown
  · rw [hown.findGate?_library hknown] at hg
    cases hg
  · obtain ⟨g', hg'⟩ := Option.isSome_iff_exists.mp hknown
    rw [hsplit, findGate?_append hg'] at hg
    cases hg
    exact hg'

theorem hasSignature_iff (h : IsKnown lib gates name) :
    HasSignature lib gates name params operands ↔ Takes lib gates name params operands := by
  unfold HasSignature Takes signature?
  cases hg : findGate? gates name with
  | some g =>
    constructor
    · rintro ⟨s, hs, hparams, hoperands⟩
      cases hs
      exact ⟨hparams, Int.ofNat.inj hoperands⟩
    · rintro ⟨rfl, rfl⟩
      exact ⟨_, rfl, rfl, rfl⟩
  | none =>
    rcases h with h | h
    · obtain ⟨f, hf⟩ := Option.isSome_iff_exists.mp h
      rw [hf]
      constructor
      · rintro ⟨s, hs, hparams, hoperands⟩
        cases hs
        exact ⟨f, rfl, hparams, hoperands⟩
      · rintro ⟨f', hf', hparams, hoperands⟩
        cases hf'
        exact ⟨_, rfl, hparams, hoperands⟩
    · rw [hg] at h
      cases h

theorem hasSignature_of_family {s : Signature} {f : Family} (hs : signature? lib gates op = some s)
    (hg : findGate? gates name = none) (hf : lib.find? name = some f) (hparams : f.params.length = s.params)
    (harity : f.arity = s.qubits) :
    HasSignature lib gates op params operands ↔ Takes lib gates name params operands := by
  rw [HasSignature, hs, Takes, hg, hf]
  constructor
  · rintro ⟨s', hs', hk, hm⟩
    cases hs'
    exact ⟨f, rfl, hk.trans hparams.symm, hm.trans harity.symm⟩
  · rintro ⟨f', hf', hk, hm⟩
    cases hf'
    exact ⟨s, rfl, hk.trans hparams, hm.trans harity⟩

/-- A primitive gate takes what the gate of the library takes that it stands for. -/
theorem hasSignature_primitive (hlib : lib.HasPrimitives) (hown : OwnNames lib gates)
    (h : libraryName op = .ok name) :
    HasSignature lib gates op params operands ↔ Takes lib gates name params operands := by
  unfold libraryName at h
  by_cases hunitary : op = "U"
  · rw [if_pos hunitary, Except.ok.injEq] at h
    obtain ⟨f, hf, hparams, harity⟩ := hlib.unitary
    subst hunitary h
    refine hasSignature_of_family (s := ⟨3, 1⟩) ?_ (hown.findGate?_library ?_) hf hparams harity
    · rw [signature?, findGate?_eq_none fun g hg => (hown g hg).2.1, hlib.free.1]
      rfl
    · rw [Library.contains, hf]
      rfl
  rw [if_neg hunitary] at h
  by_cases hnot : op = "CX"
  · rw [if_pos hnot, Except.ok.injEq] at h
    obtain ⟨f, hf, hparams, harity⟩ := hlib.controlledNot
    subst hnot h
    refine hasSignature_of_family (s := ⟨0, 2⟩) ?_ (hown.findGate?_library ?_) hf hparams harity
    · rw [signature?, findGate?_eq_none fun g hg => (hown g hg).2.2, hlib.free.2]
      rfl
    · rw [Library.contains, hf]
      rfl
  · rw [if_neg hnot] at h
    cases h

/-! ## Checks of statements -/

theorem mapM_target?_eq_some :
    ts.mapM Term.target? = some targets ↔ ∃ refs, ts.mapM Term.reference = .ok refs ∧ refs.map Ref.target = targets :=
  mapM_toOption_eq_some

theorem mapM_primitiveTarget?_eq_some : ts.mapM Term.primitiveTarget? = some targets ↔
      ∃ refs, ts.mapM Term.toQuantum = .ok refs ∧ refs.map Ref.target = targets :=
  mapM_toOption_eq_some

/-- The statements that have an effect. -/
inductive HasEffect : Node → Effect → Prop
  | call {name : String} {position : Position} {params operands : List Term} {guard : Option Guard} {refs : List Ref}
      (hrefs : operands.mapM Term.reference = .ok refs) :
      HasEffect (.call name position params operands guard) (.apply name params (refs.map Ref.target))
  | primitive {op : String} {first second : List Term} {guard : Option Guard} {position : Position} {name : String}
      {refs : List Ref} (hname : libraryName op = .ok name)
      (hrefs : (Node.primitiveOperands op first second).mapM Term.toQuantum = .ok refs) :
      HasEffect (.primitive op first second guard position)
        (.apply name (Node.primitiveParams op first) (refs.map Ref.target))
  | measure {qubit clbit : Term} {position : Position} {guard : Option Guard} {q c : Ref}
      (hq : qubit.reference = .ok q) (hc : clbit.reference = .ok c) :
      HasEffect (.measure qubit clbit position guard) (.measure q.target c.target)
  | barrier {position : Position} {operands : List Term} {refs : List Ref}
      (hrefs : operands.mapM Term.reference = .ok refs) :
      HasEffect (.barrier position operands) (.barrier (refs.map Ref.target))

theorem hasEffect_of_effect? (he : n.effect? = some e) : HasEffect n e := by
  cases n with
  | call name position params operands guard =>
    obtain ⟨targets, htargets, rfl⟩ := Option.map_eq_some_iff.mp he
    obtain ⟨refs, hrefs, rfl⟩ := mapM_target?_eq_some.mp htargets
    exact .call hrefs
  | primitive op first second guard position =>
    obtain ⟨name, hname, hrest⟩ := Option.bind_eq_some_iff.mp he
    obtain ⟨targets, htargets, hpure⟩ := Option.bind_eq_some_iff.mp hrest
    obtain ⟨refs, hrefs, rfl⟩ := mapM_primitiveTarget?_eq_some.mp htargets
    cases hpure
    exact .primitive (toOption_eq_some.mp hname) hrefs
  | measure qubit clbit position guard =>
    obtain ⟨q, hq, hrest⟩ := Option.bind_eq_some_iff.mp he
    obtain ⟨c, hc, hpure⟩ := Option.bind_eq_some_iff.mp hrest
    obtain ⟨r, hr, rfl⟩ := Option.map_eq_some_iff.mp hq
    obtain ⟨k, hk, rfl⟩ := Option.map_eq_some_iff.mp hc
    cases hpure
    exact .measure (toOption_eq_some.mp hr) (toOption_eq_some.mp hk)
  | barrier position operands =>
    obtain ⟨targets, htargets, rfl⟩ := Option.map_eq_some_iff.mp he
    obtain ⟨refs, hrefs, rfl⟩ := mapM_target?_eq_some.mp htargets
    exact .barrier hrefs
  | _ => cases he

/-- The checks of calls ask for nothing but what `Effect.Suits` says. -/
theorem checkGateStatement_eq_ok (hlib : lib.HasPrimitives) (hown : OwnNames lib gates)
    (he : n.effect? = some e) (hknown : e.IsKnown lib gates) :
    checkGateStatement lib gates regs n = .ok () ↔ e.Suits lib gates regs := by
  cases hasEffect_of_effect? he with
  | @call name position params operands guard refs hrefs =>
    have hlength : refs.length = operands.length := (mapM_eq_ok.mp hrefs).length_eq.symm
    rw [checkGateStatement, hrefs, checkCall_eq_ok, hasSignature_iff hknown, Effect.Suits, length_map, hlength]
  | primitive hname hrefs =>
    rw [checkGateStatement, hrefs]
    show checkCall _ _ _ _ _ _ _ _ = _ ↔ _
    rw [checkCall_eq_ok, hasSignature_primitive hlib hown hname, Effect.Suits, length_map]
  | _ => exact iff_of_true rfl trivial

theorem checkMeasure_eq_ok {qubit clbit : Term} {q c : Ref} (hq : qubit.reference = .ok q)
    (hc : clbit.reference = .ok c) : checkMeasure p qubit clbit position = .ok () ↔
      (q.index = none → c.index = none → ∀ m n, sizeOf? p.qregs q.name = some m → sizeOf? p.cregs c.name = some n →
        m = n) := by
  have hpure : (pure () : Except Fault Unit) = .ok () := rfl
  unfold checkMeasure
  rw [hq, hc]
  dsimp only [bind, Except.bind]
  cases hi : q.index with
  | some i =>
    refine iff_of_true hpure fun h => ?_
    cases h
  | none =>
    cases hj : c.index with
    | some j =>
      refine iff_of_true hpure fun _ h => ?_
      cases h
    | none =>
      rw [Option.isNone_none, if_pos rfl, if_pos rfl]
      cases hm : sizeOf? p.qregs q.name with
      | none =>
        refine iff_of_true hpure fun _ _ m n h => ?_
        cases h
      | some m =>
        cases hn : sizeOf? p.cregs c.name with
        | none =>
          refine iff_of_true hpure fun _ _ m n _ h => ?_
          cases h
        | some n =>
          dsimp only
          rw [ite_fail_eq_ok, not_not]
          constructor
          · rintro ⟨rfl, -⟩ - - m' n' hm' hn'
            exact (Option.some.inj hm').symm.trans (Option.some.inj hn')
          · intro h
            exact ⟨h rfl rfl m n rfl rfl, hpure⟩

theorem checkStatement_eq_ok (hlib : lib.HasPrimitives) (hown : OwnNames lib p.gates)
    (he : n.effect? = some e) (hknown : e.IsKnown lib p.gates) : checkStatement lib p n = .ok () ↔ e.IsValid lib p := by
  cases hasEffect_of_effect? he with
  | measure hq hc => exact checkMeasure_eq_ok hq hc
  | barrier hrefs =>
    rw [checkStatement, hrefs]
    exact distinctOperands_eq_ok
  | _ => exact checkGateStatement_eq_ok hlib hown he hknown

/-- A program passes its checks if all parts of it pass theirs. -/
theorem validate_eq_ok : p.validate lib = .ok () ↔ p.version = "2.0" ∧ (∀ i ∈ p.includes, checkInclude i = .ok ()) ∧
    (∀ g ∈ p.gates, ∀ n ∈ g.body, checkGateStatement lib p.gates [] n = .ok ()) ∧
    ∀ n ∈ p.body, checkStatement lib p n = .ok () := by
  have hbodies : (p.gates.forM fun g => g.body.forM (checkGateStatement lib p.gates [])) = .ok () ↔
      ∀ g ∈ p.gates, ∀ n ∈ g.body, checkGateStatement lib p.gates [] n = .ok () := by
    rw [forM_eq_ok]
    exact forall₂_congr fun g _ => forM_eq_ok
  unfold validate
  by_cases hversion : p.version = "2.0"
  · rw [if_neg (not_not.mpr hversion)]
    constructor
    · intro h
      obtain ⟨_, hincludes, h⟩ := bind_eq_ok.mp h
      obtain ⟨_, hgates, hbody⟩ := bind_eq_ok.mp h
      exact ⟨hversion, forM_eq_ok.mp hincludes, hbodies.mp hgates, forM_eq_ok.mp hbody⟩
    · rintro ⟨-, hincludes, hgates, hbody⟩
      exact bind_eq_ok.mpr ⟨(), forM_eq_ok.mpr hincludes, bind_eq_ok.mpr ⟨(), hbodies.mpr hgates, forM_eq_ok.mpr hbody⟩⟩
  · rw [if_pos hversion]
    exact iff_of_false (fun h => by cases h) fun h => hversion h.1

theorem checkInclude_eq_ok {i : Include} : checkInclude i = .ok () ↔ i.path = "qelib1.inc" := by
  unfold checkInclude
  by_cases hi : i.path = "qelib1.inc"
  · rw [if_pos hi]
    exact iff_of_true rfl hi
  · rw [if_neg hi]
    exact iff_of_false (fun h => by cases h) hi

/-- Where all statements have effects, the checks of a program ask for nothing but what `IsValid` says. -/
theorem validate_iff (hlib : lib.HasPrimitives) (hown : OwnNames lib p.gates)
    (hgates : ∀ g ∈ p.gates, ∀ n ∈ g.body, ∃ e ∈ n.effect?, e.IsKnown lib p.gates)
    (hbody : ∀ n ∈ p.body, ∃ e ∈ n.effect?, e.IsKnown lib p.gates) : p.validate lib = .ok () ↔ p.IsValid lib := by
  have heffects : ∀ {n : Node} {R : Effect → Prop} {x : Except Fault Unit}, (∃ e ∈ n.effect?, e.IsKnown lib p.gates) →
      (∀ e, n.effect? = some e → e.IsKnown lib p.gates → (x = .ok () ↔ R e)) →
      (x = .ok () ↔ ∀ e ∈ n.effect?, R e) := by
    rintro n R x ⟨e, he, hknown⟩ hx
    rw [hx e he hknown]
    refine ⟨fun h e' he' => ?_, fun h => h e he⟩
    cases he.symm.trans he'
    exact h
  have hincludes : (∀ i ∈ p.includes, checkInclude i = .ok ()) ↔ ∀ i ∈ p.includes, i.path = "qelib1.inc" :=
    forall₂_congr fun i _ => checkInclude_eq_ok
  have hbodies : (∀ g ∈ p.gates, ∀ n ∈ g.body, checkGateStatement lib p.gates [] n = .ok ()) ↔
      ∀ g ∈ p.gates, ∀ n ∈ g.body, ∀ e ∈ n.effect?, e.Suits lib p.gates [] :=
    forall₂_congr fun g hg => forall₂_congr fun n hn => heffects (hgates g hg n hn) fun e he hknown =>
      checkGateStatement_eq_ok hlib hown he hknown
  have hstatements : (∀ n ∈ p.body, checkStatement lib p n = .ok ()) ↔ ∀ n ∈ p.body, ∀ e ∈ n.effect?, e.IsValid lib p :=
    forall₂_congr fun n hn => heffects (hbody n hn) fun e he hknown => checkStatement_eq_ok hlib hown he hknown
  rw [validate_eq_ok, hincludes, hbodies, hstatements]
  exact ⟨fun h => ⟨h.1, h.2.1, h.2.2.1, h.2.2.2⟩, fun h => ⟨h.version, h.includes, h.gates, h.body⟩⟩

end

end Program

end QasmCircuit
