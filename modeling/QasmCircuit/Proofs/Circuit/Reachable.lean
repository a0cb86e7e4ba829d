import QasmCircuit.Library.Packaged
import QasmCircuit.Lowering
import QasmCircuit.Proofs.Circuit.Join

/-!
# Circuits within reach

`Call` lists the operations that build and change circuits, and `Store.Reachable` the stores that some sequence of
calls leads to, failed calls included. A call may name what an earlier call handed out, and what is inside a
circuit or a gate.

> `Store.Reachable.exists_sound`: every store within reach is sound, but for what nobody can get at.
-/

namespace QasmCircuit

open Outcome List

variable {libs : Set Library} {lost loose : Set InstructionId} {s : Store} {lib : Library} {g : GateDef}

/-! ## Lowering keeps stores sound -/

namespace Action

variable {gates : List GateDef} {n : Node} {home : CircuitId} {regs : List Register}

theorem safe_buildStatement {nested : GateDef → List Argument → List Argument → Action InstructionId}
    (hnested : ∀ {g values operands t}, t.Orderly libs lost loose →
      (nested g values operands).Safe libs lost loose t fun i u => u.Known lost i ∧ i ∉ loose)
    {gate : InstructionId} {env : Tree.Env} {formals : List (String × Argument)} (hs : s.Orderly libs lost loose)
    (hgate : gate ∉ lost) :
    (buildStatement nested gates gate env formals n).Safe libs lost loose s fun _ _ => True := by
  have hkept : (Container.gate gate).IsKept lost := hgate
  unfold buildStatement
  split
  · refine reads_lift.safe_bind hs fun bits _ => ?_
    exact (safe_barrier hs hkept).bind fun _ t ht _ _ => safe_pure ht trivial
  · refine reads_lift.safe_bind hs fun parts _ => reads_lift.safe_bind hs fun bits _ => ?_
    split
    · exact (hnested hs).bind fun i t ht _ hi => safe_attach ht hkept hi.1.1 hi.2
    · exact (safe_applyGate hs hkept).bind fun _ t ht _ _ => safe_pure ht trivial

theorem safe_buildComposite (depth : Nat) {values operands : List Argument}
    (hs : s.Orderly libs lost loose) : (buildComposite home gates depth g values operands).Safe libs lost loose s
      fun i t => t.Known lost i ∧ i ∉ loose := by
  induction depth generalizing g values operands s with
  | zero => exact safe_throw hs
  | succ depth ih =>
    refine (safe_newComposite hs).bind fun i t ht _ hi => ?_
    refine (safe_forM ht fun n _ u hu _ => safe_buildStatement ih hu hi.1.1).bind fun _ u hu htu _ => ?_
    exact safe_pure hu ⟨hi.1.mono htu, hi.2⟩

theorem safe_applyComposite {values : List Float} {args : List Argument} (hs : s.Orderly libs lost loose) :
    (applyComposite home gates g values args).Safe libs lost loose s fun v _ => ∀ i ∈ v.ids, i ∉ lost := by
  refine reads_lift.safe_bind hs fun rows _ => ?_
  have hbuild : (rows.mapM (buildComposite home gates (gates.length + 1) g (Program.valueArguments values))).Safe
      libs lost loose s fun is _ => Forall₂ (fun _ i => i ∉ lost ∧ i ∉ loose) rows is :=
    safe_mapM hs (fun _ _ _ _ h _ => h) fun _ _ t ht _ => (safe_buildComposite _ ht).imp fun _ _ hi => ⟨hi.1.1, hi.2⟩
  refine hbuild.bind fun is t ht _ his => ?_
  have hnew : ∀ i ∈ is, i ∉ lost ∧ i ∉ loose := by
    intro i hi
    obtain ⟨_, -, hfacts⟩ := exists_of_forall₂ his i hi
    exact hfacts
  refine (safe_forM ht fun i hi u hu _ => ?_).bind fun _ u hu _ _ =>
    safe_pure hu fun i hi => (hnew i (mem_of_applied i hi)).1
  exact safe_attach (k := .circuit home) hu trivial (hnew i hi).1 (hnew i hi).2

theorem safe_conditionApplied {v : Applied} {register : Register} {value : Int} (hs : s.Orderly libs lost loose)
    (hv : ∀ i ∈ v.ids, i ∉ lost) : (conditionApplied v register value).Safe libs lost loose s fun _ _ => True := by
  cases v with
  | single i => exact reads_depth.safe_bind hs fun m _ => safe_condition m hs (hv i mem_cons_self)
  | group is => exact safe_conditionAll hs hv

theorem reads_statementCondition : (statementCondition home regs n).Reads s fun _ => True := by
  unfold statementCondition
  split
  · exact reads_pure trivial
  · split
    · exact reads_throw
    · exact reads_circuit.bind fun _ _ => reads_lift.bind fun _ _ => reads_pure trivial

section

variable (hs : s.Orderly libs lost loose)

include hs

theorem safe_applyStatement :
    (applyStatement home regs gates n).Safe libs lost loose s fun v _ => ∀ i ∈ v.ids, i ∉ lost := by
  unfold applyStatement
  split
  · exact reads_lift.safe_bind hs fun _ _ => reads_lift.safe_bind hs fun _ _ =>
      (safe_measure hs).imp fun _ _ hv i hi => (hv i hi).1
  · refine reads_lift.safe_bind hs fun parts _ => reads_lift.safe_bind hs fun args _ => ?_
    split
    · exact safe_applyComposite hs
    · exact (safe_applyGate (k := .circuit home) hs trivial).imp fun _ _ hv i hi => (hv i hi).1

theorem safe_lowerStatement : (lowerStatement home regs gates n).Safe libs lost loose s fun _ _ => True := by
  refine reads_statementCondition.safe_bind hs fun guard _ => ?_
  split
  · refine reads_lift.safe_bind hs fun args _ => ?_
    exact (safe_barrier (k := .circuit home) hs trivial).bind fun _ t ht _ _ => safe_pure ht trivial
  · refine (safe_applyStatement hs).bind fun v t ht _ hv => ?_
    split
    · exact safe_pure ht trivial
    · exact safe_conditionApplied ht hv

theorem safe_lower {name : Option Datum} {p : Program}
    (hlib : lib ∈ libs) : (lower lib name p).Safe libs lost loose s fun _ _ => True := by
  refine reads_lift.safe_bind hs fun _ _ => reads_lift.safe_bind hs fun regs _ => ?_
  refine (safe_newCircuit hs hlib).bind fun home t ht _ _ => ?_
  refine (safe_forM ht fun n _ u hu _ => ?_).bind fun _ u hu _ _ => safe_pure hu trivial
  refine reads_lift.safe_bind hu fun position _ => (safe_note hu).bind fun _ v hv _ _ => ?_
  exact ends_tryCatch.mpr (Ends.imp (safe_lowerStatement hv) (fun _ _ h => h) fun _ _ h => ends_throw.mpr h)

end

end Action

/-! ## The packaged library -/

namespace Library

/-- The links of the packaged library lead to families that fit. -/
theorem packaged_links : ∀ f ∈ packaged.families, (∀ g ∈ packaged.find? f.inverseName,
      f.inverseParams.length = g.params.length ∧ g.arity = f.arity ∧ g.controlled = f.controlled) ∧
    (∀ p ∈ f.inverseParams, p.2 = 1 ∨ p.2 = -1) ∧
    ∀ name ∈ f.controlled, ∀ g ∈ packaged.find? name, g.arity = f.arity + 1 ∧ g.params.length = f.params.length := by
  decide

theorem isRegular_packaged : packaged.IsRegular where
  inverse f g hf hg :=
    have hlink := (packaged_links f (mem_of_find? hf)).1 g hg
    ⟨hlink.1, hlink.2.1⟩
  factor f hf := (packaged_links f (mem_of_find? hf)).2.1
  controlled f name g hf hname hg := (packaged_links f (mem_of_find? hf)).2.2 name hname g hg

theorem isAligned_packaged : packaged.IsAligned :=
  isAligned_of_controlled fun f g hf hg => ((packaged_links f (mem_of_find? hf)).1 g hg).2.2

end Library

/-! ## Calls -/

/-- The operations that build and change circuits. -/
inductive Call where
  | newCircuit (name : Option Datum) (registers : List Argument)
  | ofText (text : String)
  | lower (name : Option Datum) (p : Program)
  | addRegisters (c : CircuitId) (registers : List Argument)
  | newComposite (home : CircuitId) (name : Argument) (args : List Argument) (params : Except Fault (List Argument))
  | buildComposite (home : CircuitId) (gates : List GateDef) (g : GateDef) (values operands : List Argument)
  | applyGate (container : Container) (name : String) (args : List Argument) (params : Except Fault (List Argument))
  | callHelper (container : Container) (name : String) (args : List Argument)
  | attach (container : Container) (i : InstructionId)
  | condition (i : InstructionId) (register value : Argument)
  | conditionAll (is : List InstructionId) (register value : Argument)
  | control (i : InstructionId) (registers : List Argument)
  | controlAll (is : List InstructionId) (registers : List Argument)
  | inverse (i : InstructionId)
  | inverseAll (is : List InstructionId)
  | inverseCircuit (c : CircuitId)
  | copy (i : InstructionId)
  | renew (i : InstructionId) (home : CircuitId)
  | reapply (i : InstructionId) (container : Container)
  | extend (c other : CircuitId)
  | duplicate (c : CircuitId)
  | concat (a b : CircuitId)

/-- The instruction that a container is. -/
def Container.ids : Container → List InstructionId
  | .circuit _ => []
  | .gate i => [i]

namespace Call

def uses : Call → List InstructionId
  | .applyGate k _ _ _ | .callHelper k _ _ => k.ids
  | .attach k i | .reapply i k => i :: k.ids
  | .condition i _ _ | .control i _ | .inverse i | .copy i | .renew i _ => [i]
  | .conditionAll is _ _ | .controlAll is _ | .inverseAll is => is
  | _ => []

open QasmCircuit.Action in
/-- Makes a call. It hands out the instructions that it gives. -/
def run (lib : Library) : Call → Action (List InstructionId)
  | .newCircuit name registers => do
    let _ ← Action.newCircuit name lib registers
    pure []
  | .ofText text => do
    let _ ← Action.ofText lib text
    pure []
  | .lower name p => do
    let _ ← Action.lower lib name p
    pure []
  | .addRegisters c registers => do
    Action.addRegisters c registers
    pure []
  | .newComposite home name args params => do pure [← Action.newComposite home name args params]
  | .buildComposite home gates g values operands => do
    pure [← Action.buildComposite home gates (gates.length + 1) g values operands]
  | .applyGate k name args params => do pure (← Action.applyGate k name args params).ids
  | .callHelper k name args => do pure (← Action.callHelper k name args).ids
  | .attach k i => do
    Action.attach k i
    pure []
  | .condition i register value => do
    Action.condition (← depth) i register value
    pure []
  | .conditionAll is register value => do
    Action.conditionAll is register value
    pure []
  | .control i registers => do
    Action.control (← depth) i registers
    pure []
  | .controlAll is registers => do
    Action.controlAll is registers
    pure []
  | .inverse i => do pure [← Action.inverse (← depth) i]
  | .inverseAll is => is.mapM fun i => do Action.inverse (← depth) i
  | .inverseCircuit c => do
    Action.inverseCircuit c
    pure []
  | .copy i => do pure [← Action.copy (← depth) i]
  | .renew i home => do pure [← Action.renew (Action.reapply (← depth)) i home]
  | .reapply i k => do pure [← Action.reapply (← depth) i k]
  | .extend c other => do
    Action.extend c other
    pure []
  | .duplicate c => do
    let _ ← Action.duplicate c
    pure []
  | .concat a b => do
    let _ ← Action.concat a b
    pure []

theorem isKept_of_ids {k : Container} (h : ∀ i ∈ k.ids, i ∉ lost) : k.IsKept lost := by
  cases k with
  | circuit c => trivial
  | gate i => exact h i mem_cons_self

open QasmCircuit.Action in
/-- A call that names what can be got at leaves an orderly store, and hands out what is known there. -/
theorem lawful_run (hlib : lib ∈ libs) (k : Call) (hs : s.Orderly libs lost ∅) (huses : ∀ i ∈ k.uses, i ∉ lost) :
    (k.run lib).Lawful libs lost s fun is t => ∀ i ∈ is, t.Known lost i := by
  have hnone : ∀ {α : Type} {a : Action α}, a.Lawful libs lost s (fun _ _ => True) →
      (do let _ ← a; pure []).Lawful libs lost s fun is t => ∀ i ∈ is, t.Known lost i := fun ha =>
    ha.bind fun _ t ht _ _ => (safe_pure ht (forall_mem_nil _)).lawful
  have hone : ∀ {a : Action InstructionId}, a.Lawful libs lost s (fun i t => t.Known lost i) →
      (do pure [← a]).Lawful libs lost s fun is t => ∀ i ∈ is, t.Known lost i := fun ha =>
    ha.bind fun j t ht _ hj => (safe_pure ht fun i hi => mem_singleton.mp hi ▸ hj).lawful
  have hsome : ∀ {a : Action Applied}, a.Lawful libs lost s (fun v t => ∀ i ∈ v.ids, t.Known lost i) →
      (do pure (← a).ids).Lawful libs lost s fun is t => ∀ i ∈ is, t.Known lost i := fun ha =>
    ha.bind fun _ t ht _ hv => (safe_pure ht hv).lawful
  have hdepth : ∀ {f : Nat → Action (List InstructionId)}, (∀ n, (f n).Lawful libs lost s fun is t =>
      ∀ i ∈ is, t.Known lost i) → (depth >>= f).Lawful libs lost s fun is t => ∀ i ∈ is, t.Known lost i :=
    fun hf => reads_depth.ends_bind (fun _ => .of_sound hs (.refl s)) fun n _ => hf n
  cases k with
  | newCircuit name regs => exact hnone (safe_newCircuit hs hlib).lawful
  | ofText text => exact hnone (reads_lift.safe_bind hs fun _ _ => safe_lower hs hlib).lawful
  | lower name p => exact hnone (safe_lower hs hlib).lawful
  | addRegisters c regs => exact hnone (safe_addRegisters hs).lawful
  | newComposite home name args params =>
    exact hone ((safe_newComposite hs).imp fun _ _ hi => hi.1).lawful
  | buildComposite home gates g values operands =>
    exact hone ((safe_buildComposite _ hs).imp fun _ _ hi => hi.1).lawful
  | applyGate k name args params => exact hsome (safe_applyGate hs (isKept_of_ids huses)).lawful
  | callHelper k name args => exact hsome (safe_callHelper hs (isKept_of_ids huses)).lawful
  | attach k i =>
    obtain ⟨hi, hk⟩ := forall_mem_cons.mp huses
    exact hnone (safe_attach hs (isKept_of_ids hk) hi (Set.notMem_empty i)).lawful
  | condition i register value =>
    exact hdepth fun n => hnone (safe_condition n hs (huses i mem_cons_self)).lawful
  | conditionAll is register value => exact hnone (safe_conditionAll hs huses).lawful
  | control i regs => exact hdepth fun n => hnone (safe_control n hs (huses i mem_cons_self)).lawful
  | controlAll is regs => exact hnone (safe_controlAll hs huses).lawful
  | inverse i =>
    exact hdepth fun n =>
      hone ((safe_inverse n hs (huses i mem_cons_self)).imp fun _ _ hj => hj.known).lawful
  | inverseAll is =>
    refine (safe_mapM (P := fun _ j t => t.Known lost j) hs (fun _ _ _ _ hj htu => hj.mono htu)
      fun i hi t ht _ => reads_depth.safe_bind ht fun n _ => ?_).lawful.imp fun is' t his' j hj => ?_
    · exact (safe_inverse n ht (huses i hi)).imp fun _ _ hj => hj.known
    · obtain ⟨_, -, hknown⟩ := exists_of_forall₂ his' j hj
      exact hknown
  | inverseCircuit c => exact hnone (safe_inverseCircuit hs).lawful
  | copy i =>
    exact hdepth fun n => hone ((safe_copy n hs (huses i mem_cons_self)).imp fun _ _ hj => hj.known).lawful
  | renew i home =>
    refine hdepth fun n => hone ((safe_renew (fun ht hm hg => ?_) hs (huses i mem_cons_self)).imp
      fun _ _ hj => hj.1).lawful
    exact (safe_reapply n (k := .gate _) ht hm hg).imp fun _ _ _ => trivial
  | reapply i k =>
    obtain ⟨hi, hk⟩ := forall_mem_cons.mp huses
    exact hdepth fun n => hone (safe_reapply n hs hi (isKept_of_ids hk)).lawful
  | extend c other => exact hnone (lawful_extend hs)
  | duplicate c => exact hnone (lawful_duplicate hs)
  | concat a b => exact hnone (lawful_concat hs)

end Call

/-! ## Stores within reach -/

namespace Store

/-- An instruction that can be got at: a call has handed it out, or a circuit or a gate holds it. -/
inductive InReach (s : Store) (handed : List InstructionId) : InstructionId → Prop
  | handed {i : InstructionId} (h : i ∈ handed) : InReach s handed i
  | data {c : CircuitId} {x : Circuit} {i : InstructionId} (hx : s.circuit? c = some x) (hi : i ∈ x.data) :
      InReach s handed i
  | inside {i j : InstructionId} {x : Instruction} (hi : InReach s handed i) (hx : s.instruction? i = some x)
      (hj : j ∈ x.inside) : InReach s handed j

/-- What calls hand out, given how the last one ended. -/
def handedBy (handed : List InstructionId) : Except Fault (List InstructionId) → List InstructionId
  | .ok new => new ++ handed
  | .error _ => handed

/-- The stores that calls lead to, with the instructions that the calls have handed out. A call that fails counts
as well. -/
inductive Reachable (lib : Library) : Store → List InstructionId → Prop
  | start : Reachable lib {} []
  | call {s : Store} {handed : List InstructionId} (h : Reachable lib s handed) (k : Call)
      (huses : ∀ i ∈ k.uses, s.InReach handed i) :
      Reachable lib ((k.run lib).outcome s).2 (handedBy handed ((k.run lib).outcome s).1)

/-- The stores that calls with some libraries lead to. Each call may make circuits with another library. -/
inductive Arises (libs : Set Library) : Store → List InstructionId → Prop
  | start : Arises libs {} []
  | call {s : Store} {handed : List InstructionId} (h : Arises libs s handed) {lib : Library} (hlib : lib ∈ libs)
      (k : Call) (huses : ∀ i ∈ k.uses, s.InReach handed i) :
      Arises libs ((k.run lib).outcome s).2 (handedBy handed ((k.run lib).outcome s).1)

variable {handed : List InstructionId}

theorem Reachable.arises (h : s.Reachable lib handed) : s.Arises {lib} handed := by
  induction h with
  | start => exact .start
  | call _ k huses ih => exact .call ih (Set.mem_singleton lib) k huses

theorem orderly_empty (libs : Set Library) : Orderly libs ∅ ∅ {} := by
  have hcircuit : ∀ c x, ({} : Store).circuit? c ≠ some x := by
    intro c x h
    simp [circuit?] at h
  have hinstruction : ∀ i x, ({} : Store).instruction? i ≠ some x := by
    intro i x h
    simp [instruction?] at h
  exact ⟨fun i hi => hi.elim, fun i hi => hi.elim, fun i x hx => absurd hx (hinstruction i x),
    fun i x hx => absurd hx (hinstruction i x), fun c x hx => absurd hx (hcircuit c x),
    fun c x hx => absurd hx (hcircuit c x), fun c x hx => absurd hx (hcircuit c x),
    fun c x hx => absurd hx (hcircuit c x), fun i x _ hx => absurd hx (hinstruction i x),
      fun i x _ hx => absurd hx (hinstruction i x)⟩

/-- All that can be got at is known, if all that was handed out is. -/
theorem InReach.known (hs : s.Orderly libs lost loose)
    (hhanded : ∀ i ∈ handed, s.Known lost i) {i : InstructionId} (h : s.InReach handed i) : s.Known lost i := by
  induction h with
  | handed hi => exact hhanded _ hi
  | data hx hi => exact (hs.data _ _ hx _ hi).known
  | inside _ hx hj ih => exact (hs.body _ _ ih.1 hx _ hj).known

/-- Whatever the libraries, a store is orderly, but for what nobody can get at. -/
theorem Arises.exists_orderly (h : s.Arises libs handed) :
    ∃ lost, s.Orderly libs lost ∅ ∧ ∀ i, s.InReach handed i → s.Known lost i := by
  suffices hknown : ∃ lost, s.Orderly libs lost ∅ ∧ ∀ i ∈ handed, s.Known lost i by
    obtain ⟨lost, hs, hhanded⟩ := hknown
    exact ⟨lost, hs, fun i hi => hi.known hs hhanded⟩
  induction h with
  | start => exact ⟨∅, orderly_empty libs, forall_mem_nil _⟩
  | @call s handed _ lib hlib k huses ih =>
    obtain ⟨lost, hs, hhanded⟩ := ih
    have hlawful := k.lawful_run hlib hs fun i hi => ((huses i hi).known hs hhanded).1
    rcases hend : (k.run lib).outcome s with ⟨result, t⟩
    rw [Action.Lawful, Action.Ends, hend] at hlawful
    cases result with
    | ok new =>
      obtain ⟨ht, hst, hnew⟩ := hlawful
      exact ⟨lost, ht, forall_mem_append.mpr ⟨hnew, fun i hi => (hhanded i hi).mono hst⟩⟩
    | error e =>
      obtain ⟨lost', ht, hknown⟩ := hlawful
      exact ⟨lost', ht, fun i hi => hknown i (hhanded i hi)⟩

/-- A store within reach is sound, but for what nobody can get at. -/
theorem Reachable.exists_sound (hlib : lib.IsRegular) (h : s.Reachable lib handed) :
    ∃ lost, s.Sound lib lost ∅ ∧ ∀ i, s.InReach handed i → s.Known lost i := by
  obtain ⟨lost, hs, hknown⟩ := h.arises.exists_orderly
  exact ⟨lost, ⟨hs, hlib⟩, hknown⟩

/-- The store after a call, and what calls have handed out by then. -/
def next (lib : Library) (p : Store × List InstructionId) (k : Call) : Store × List InstructionId :=
  (((k.run lib).outcome p.1).2, handedBy p.2 ((k.run lib).outcome p.1).1)

/-- Whether each of some calls names only what was handed out before it. -/
def namesHanded (lib : Library) (p : Store × List InstructionId) : List Call → Bool
  | [] => true
  | k :: rest => k.uses.all p.2.contains && namesHanded lib (next lib p k) rest

/-- Calls that name only what was handed out before lead to a store within reach. -/
theorem reachable_foldl (lib : Library) (calls : List Call) (hcalls : namesHanded lib ({}, []) calls) :
    (calls.foldl (next lib) ({}, [])).1.Reachable lib (calls.foldl (next lib) ({}, [])).2 := by
  suffices hrun : ∀ p : Store × List InstructionId, p.1.Reachable lib p.2 → namesHanded lib p calls →
      (calls.foldl (next lib) p).1.Reachable lib (calls.foldl (next lib) p).2 from hrun ({}, []) .start hcalls
  clear hcalls
  induction calls with
  | nil => exact fun p hp _ => hp
  | cons k rest ih =>
    intro p hp hcalls
    rw [namesHanded, Bool.and_eq_true, all_eq_true] at hcalls
    refine ih (next lib p k) (hp.call k fun i hi => .handed ?_) hcalls.2
    exact contains_iff_mem.mp (hcalls.1 i hi)

end Store

def Bit.single : Bit := ⟨⟨.quantum, "q", 1, by decide, by decide⟩, 0, by decide⟩

/-- A register that a gate on a single bit can be controlled by. -/
def Register.lead : Register := ⟨.quantum, "r", 1, by decide, by decide⟩

/-- A register that a gate can be conditioned on. -/
def Register.flag : Register := ⟨.classical, "c", 1, by decide, by decide⟩

end QasmCircuit
