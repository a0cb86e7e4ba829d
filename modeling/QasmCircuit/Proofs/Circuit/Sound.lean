import Mathlib.Data.Set.Insert
import QasmCircuit.Circuit.Modifier
import QasmCircuit.Proofs.Circuit.Step
import QasmCircuit.Proofs.Decimal.Unit

/-!
# Sound stores

What holds of every instruction and of every circuit, whatever was done to them: an instruction has the
parameters and operands that its operation asks for, and the members of a circuit or of a gate act on the
registers of their circuit.

Two kinds of instructions are set apart. Those that a failed extension leaves behind are `lost`: nothing is
known of them, and nobody can get at them. Those that are `loose` are still under construction, and no
circuit and no gate holds them.

> `Store.Orderly`: the invariant, whatever the libraries.
> `Store.Sound`: the invariant for circuits that share a library whose links fit.
> `Store.Grows`: what a step may do to a store.
-/

namespace QasmCircuit

variable {lib : Library} {name : String} {f : Family} {body : List InstructionId} {inverted : Bool}
  {regs regs' : List Register}

/-! ## Libraries -/

namespace Library

/-- The family with a number of controls in front, reached by the links of a library. -/
def controlledBy (lib : Library) : Nat → Family → Option Family
  | 0, f => some f
  | n + 1, f => f.controlled.bind fun name => (lib.find? name).bind (lib.controlledBy n)

/-- The links of a library lead to families that fit: an inverse takes the same operands, and only turns signs of
parameters; a controlled form takes one more operand. -/
structure IsRegular (lib : Library) : Prop where
  inverse : ∀ f g, lib.find? f.name = some f → lib.find? f.inverseName = some g →
    f.inverseParams.length = g.params.length ∧ g.arity = f.arity
  factor : ∀ f, lib.find? f.name = some f → ∀ p ∈ f.inverseParams, p.2 = 1 ∨ p.2 = -1
  controlled : ∀ f name g, lib.find? f.name = some f → f.controlled = some name → lib.find? name = some g →
    g.arity = f.arity + 1 ∧ g.params.length = f.params.length

/-- Inverses can be controlled: where a family has a form with a number of controls, its inverse has one. -/
def IsAligned (lib : Library) : Prop :=
  ∀ f g n, lib.find? f.name = some f → lib.find? f.inverseName = some g →
    (lib.controlledBy n f).isSome → (lib.controlledBy n g).isSome

section

variable (h : lib.find? name = some f)

include h

theorem name_of_find? : f.name = name :=
  beq_iff_eq.mp (@List.find?_some _ (fun g : Family => g.name == name) f lib.families h)

theorem find?_name : lib.find? f.name = some f := by
  rw [name_of_find? h, h]

theorem mem_of_find? : f ∈ lib.families :=
  List.mem_of_find?_eq_some h

end

theorem lookup_eq_ok : lib.lookup name = .ok f ↔ lib.find? name = some f := by
  unfold lookup
  cases lib.find? name with
  | none => exact ⟨fun h => (nomatch h), fun h => (nomatch h)⟩
  | some g => rw [Except.ok.injEq, Option.some.injEq]

/-- Inverses can be controlled if they have the same controlled forms. -/
theorem isAligned_of_controlled
    (h : ∀ f g, lib.find? f.name = some f → lib.find? f.inverseName = some g → g.controlled = f.controlled) :
    lib.IsAligned := by
  intro f g n hf hg hcontrolled
  cases n with
  | zero => rfl
  | succ n =>
    rw [controlledBy] at hcontrolled ⊢
    rw [h f g hf hg]
    exact hcontrolled

/-- A family with controls is in the library, with an operand for each control. -/
theorem IsRegular.controlledBy (hlib : lib.IsRegular) {n : Nat} {g : Family} (hf : lib.find? f.name = some f)
    (h : lib.controlledBy n f = some g) :
    lib.find? g.name = some g ∧ g.arity = f.arity + n ∧ g.params.length = f.params.length := by
  induction n generalizing f with
  | zero =>
    cases h
    exact ⟨hf, (Int.add_zero _).symm, rfl⟩
  | succ n ih =>
    obtain ⟨name, hname, hrest⟩ := Option.bind_eq_some_iff.mp h
    obtain ⟨k, hk, hlast⟩ := Option.bind_eq_some_iff.mp hrest
    obtain ⟨harity, hparams⟩ := hlib.controlled f name k hf hname hk
    obtain ⟨hg, harity', hparams'⟩ := ih (find?_name hk) hlast
    exact ⟨hg, by rw [harity', harity]; push_cast; omega, hparams'.trans hparams⟩

end Library

/-! ## Instructions -/

/-- A bit of a kind that some registers have. -/
def Bit.IsIn (regs : List Register) (kind : RegisterKind) (b : Bit) : Prop :=
  b.register.kind = kind ∧ ∃ r ∈ regs, r.name = b.register.name ∧ r.kind = kind ∧ b.index < r.size

theorem Bit.IsIn.mono (h : regs ⊆ regs')
    {kind : RegisterKind} {b : Bit} (hb : b.IsIn regs kind) : b.IsIn regs' kind := by
  obtain ⟨hkind, r, hr, hrest⟩ := hb
  exact ⟨hkind, r, h hr, hrest⟩

namespace Instruction

variable {x y : Instruction}

/-- The members of the body of a gate; other instructions have none. -/
def inside (x : Instruction) : List InstructionId :=
  match x.operation with
  | .composite _ body _ => body
  | _ => []

/-- An instruction acts on registers: it has distinct operands there, and its modifiers are there. -/
structure Fits (regs : List Register) (x : Instruction) : Prop where
  qubits : ∀ b ∈ x.splitArgs.1, b.IsIn regs .quantum
  clbits : ∀ b ∈ x.splitArgs.2, b.IsIn regs .classical
  distinct : Bit.distinct (x.controlBits ++ x.splitArgs.1)
  controls : ∀ r ∈ x.controls, r ∈ regs ∧ r.kind = .quantum
  condition : ∀ r v, x.condition = some (r, v) → r ∈ regs ∧ r.kind = .classical ∧ r.fits v

def isMeasure (x : Instruction) : Bool :=
  match x.operation with
  | .measure => true
  | _ => false

/-- Whether an instruction is a gate of a library. -/
def isAtomic (x : Instruction) : Bool :=
  match x.operation with
  | .atomic _ => true
  | _ => false

/-- What an instruction stays for good: its circuit, its operands, and whether it is a barrier or a measurement. -/
structure Alike (x y : Instruction) : Prop where
  circuit : y.circuit = x.circuit
  args : y.args = x.args
  isBarrier : y.isBarrier = x.isBarrier
  isMeasure : y.isMeasure = x.isMeasure

theorem Alike.refl (x : Instruction) : x.Alike x := ⟨rfl, rfl, rfl, rfl⟩

theorem Alike.symm (h : x.Alike y) : y.Alike x :=
  ⟨h.circuit.symm, h.args.symm, h.isBarrier.symm, h.isMeasure.symm⟩

theorem Alike.trans {z : Instruction} (hxy : x.Alike y) (hyz : y.Alike z) : x.Alike z :=
  ⟨hyz.circuit.trans hxy.circuit, hyz.args.trans hxy.args, hyz.isBarrier.trans hxy.isBarrier,
    hyz.isMeasure.trans hxy.isMeasure⟩

/-- A gate whose body is changed stays a gate. -/
theorem alike_composite
    (h : x.operation = .composite name body inverted) (name' : String) (body' : List InstructionId) (inverted' : Bool) :
    x.Alike { x with operation := .composite name' body' inverted' } := by
  refine ⟨rfl, rfl, ?_, ?_⟩
  · rw [Instruction.isBarrier, Instruction.isBarrier, h]
  · rw [Instruction.isMeasure, Instruction.isMeasure, h]

theorem splitArgs_eq (x : Instruction) :
    x.splitArgs = if x.isMeasure then (x.args.take 1, x.args.drop 1) else (x.args, []) := by
  unfold splitArgs Instruction.isMeasure
  cases x.operation <;> rfl

theorem Alike.splitArgs (h : x.Alike y) : y.splitArgs = x.splitArgs := by
  rw [splitArgs_eq, splitArgs_eq, h.args, h.isMeasure]

/-- An instruction has the parameters, operands and modifiers that its operation asks for. Whether a gate has a
form with its controls is known only where inverses can be controlled. -/
def IsProper (lib : Library) (x : Instruction) : Prop :=
  match x.operation with
  | .atomic f => lib.find? f.name = some f ∧ x.params.length = f.params.length ∧
      (∀ p ∈ x.params, p.isFinite) ∧ (x.args.length : Int) = f.arity ∧
      (lib.IsAligned → (lib.controlledBy x.controlBits.length f).isSome)
  | .barrier => x.args ≠ [] ∧ x.controls = [] ∧ x.condition = none ∧ x.params = []
  | .measure => x.args.length = 2 ∧ x.controls = [] ∧ x.params = []
  | .composite _ _ _ => x.args ≠ []

theorem IsProper.condition_of_isBarrier {x : Instruction} (h : x.IsProper lib) (hbarrier : x.isBarrier) :
    x.condition = none := by
  unfold IsProper at h
  cases hop : x.operation with
  | barrier =>
    rw [hop] at h
    exact h.2.2.1
  | _ =>
    rw [isBarrier, hop] at hbarrier
    cases hbarrier

/-- A gate that circuits with a library can have: one of the library, which has a form with its controls where inverses
can be controlled, or one with a body, whose name is no name of the library. -/
def IsNative (lib : Library) (x : Instruction) : Prop :=
  match x.operation with
  | .atomic f => lib.find? f.name = some f ∧ (lib.IsAligned → (lib.controlledBy x.controlBits.length f).isSome)
  | .composite name _ _ => isIdentifier name ∧ lib.contains name = false
  | _ => True

/-- A gate of a library has finite parameters. Inverses have the same ones up to their signs if the links of all
libraries fit. -/
def IsFinite (libs : Set Library) (x : Instruction) : Prop :=
  x.isAtomic → (∀ lib ∈ libs, lib.IsRegular) → ∀ p ∈ x.params, p.isFinite

theorem Fits.mono (h : regs ⊆ regs') (hx : x.Fits regs) : x.Fits regs' where
  qubits b hb := (hx.qubits b hb).mono h
  clbits b hb := (hx.clbits b hb).mono h
  distinct := hx.distinct
  controls r hr := ⟨h (hx.controls r hr).1, (hx.controls r hr).2⟩
  condition r v hc := ⟨h (hx.condition r v hc).1, (hx.condition r v hc).2⟩

/-- The operands and the modifiers say where an instruction fits. -/
theorem Fits.congr (h : x.Fits regs) (hargs : y.splitArgs = x.splitArgs)
    (hcontrols : y.controls = x.controls) (hcondition : y.condition = x.condition) : y.Fits regs := by
  refine ⟨?_, ?_, ?_, ?_, ?_⟩
  · rw [hargs]
    exact h.qubits
  · rw [hargs]
    exact h.clbits
  · rw [controlBits, hcontrols, hargs]
    exact h.distinct
  · rw [hcontrols]
    exact h.controls
  · rw [hcondition]
    exact h.condition

theorem splitArgs_composite
    (h : x.operation = .composite name body inverted) : x.splitArgs = (x.args, []) := by
  rw [splitArgs, h]

theorem splitArgs_atomic (h : x.operation = .atomic f) : x.splitArgs = (x.args, []) := by
  rw [splitArgs, h]

end Instruction

/-! ## Stores -/

namespace Store

/-- An instruction acts on the registers of its circuit. -/
def Fits (s : Store) (x : Instruction) : Prop :=
  ∃ c, s.circuit? x.circuit = some c ∧ x.Fits c.registers

/-- An instruction that a circuit, or a gate of the circuit, may hold. -/
structure Member (lost loose : Set InstructionId) (s : Store) (c : CircuitId) (i : InstructionId) : Prop where
  kept : i ∉ lost
  ready : i ∉ loose
  fits : ∃ x, s.instruction? i = some x ∧ x.circuit = c ∧ s.Fits x

/-- An instruction that a gate with some arguments may hold: it is no measurement, and it acts on the arguments. -/
def InScope (s : Store) (args : List Bit) (i : InstructionId) : Prop :=
  ∃ x, s.instruction? i = some x ∧ x.isMeasure = false ∧ ∀ b ∈ x.args, b.among args

/-- An instruction that a gate may hold. -/
structure Part (lost loose : Set InstructionId) (s : Store) (x : Instruction) (i : InstructionId) : Prop extends
    s.Member lost loose x.circuit i where
  scope : s.InScope x.args i

/-- An instruction is as its operation asks for. Of a gate of a library that is known only where all circuits share one
library, whose links fit; but its circuit is there in any case, and so is the gate in the library of the circuit. -/
structure Formed (libs : Set Library) (s : Store) (x : Instruction) : Prop where
  proper : ∀ lib, (x.isAtomic → libs = {lib} ∧ lib.IsRegular) → x.IsProper lib
  home : x.isBarrier = false → x.isMeasure = false → ∃ c, s.circuit? x.circuit = some c ∧ x.IsNative c.library
  finite : x.IsFinite libs

/-- The invariant of all stores that are built with some libraries. -/
structure Orderly (libs : Set Library) (lost loose : Set InstructionId) (s : Store) : Prop where
  lost_lt : ∀ i ∈ lost, i < s.instructions.size
  loose_lt : ∀ i ∈ loose, i < s.instructions.size
  inside_lt : ∀ i x, s.instruction? i = some x → ∀ j ∈ x.inside, j < s.instructions.size
  finite : ∀ i x, s.instruction? i = some x → x.IsFinite libs
  libraries : ∀ c x, s.circuit? c = some x → x.library ∈ libs
  names : ∀ c x, s.circuit? c = some x → (x.registers.map Register.name).Nodup
  short : ∀ c x, s.circuit? c = some x → ∀ r ∈ x.registers, Text.isShort r.size
  data : ∀ c x, s.circuit? c = some x → ∀ i ∈ x.data, s.Member lost loose c i
  formed : ∀ i x, i ∉ lost → s.instruction? i = some x → s.Formed libs x
  body : ∀ i x, i ∉ lost → s.instruction? i = some x → ∀ j ∈ x.inside, s.Part lost loose x j

/-- The invariant of all stores that are built with one library whose links fit. -/
structure Sound (lib : Library) (lost loose : Set InstructionId) (s : Store) : Prop extends
    s.Orderly {lib} lost loose where
  regular : lib.IsRegular

/-- What a step may do to a store: circuits keep their registers and their library, and instructions stay what they
are; what was good for its circuit stays so, unless it is loose. -/
structure Grows (loose : Set InstructionId) (s t : Store) : Prop where
  circuits : ∀ c x, s.circuit? c = some x →
    ∃ y, t.circuit? c = some y ∧ x.registers ⊆ y.registers ∧ y.library = x.library
  instructions : ∀ i x, s.instruction? i = some x →
    ∃ y, t.instruction? i = some y ∧ x.Alike y ∧ (i ∉ loose → s.Fits x → t.Fits y)

/-- An instruction that is there and can be got at. -/
def Known (lost : Set InstructionId) (s : Store) (i : InstructionId) : Prop :=
  i ∉ lost ∧ i < s.instructions.size

variable {libs : Set Library} {lost loose : Set InstructionId} {s t u : Store} {c : CircuitId}
  {i : InstructionId} {x y : Instruction}

theorem Grows.refl (s : Store) : s.Grows loose s :=
  ⟨fun _ x hx => ⟨x, hx, List.Subset.refl _, rfl⟩, fun _ x hx => ⟨x, hx, .refl x, fun _ h => h⟩⟩

theorem Grows.trans (hst : s.Grows loose t) (htu : t.Grows loose u) : s.Grows loose u where
  circuits c x hx := by
    obtain ⟨y, hy, hxy, hlibrary⟩ := hst.circuits c x hx
    obtain ⟨z, hz, hyz, hlibrary'⟩ := htu.circuits c y hy
    exact ⟨z, hz, fun _ hr => hyz (hxy hr), hlibrary'.trans hlibrary⟩
  instructions i x hx := by
    obtain ⟨y, hy, hxy, hfits⟩ := hst.instructions i x hx
    obtain ⟨z, hz, hyz, hfits'⟩ := htu.instructions i y hy
    exact ⟨z, hz, hxy.trans hyz, fun hi h => hfits' hi (hfits hi h)⟩

theorem Member.mono (h : s.Member lost loose c i) (hst : s.Grows loose t) : t.Member lost loose c i := by
  obtain ⟨x, hx, hc, hfits⟩ := h.fits
  obtain ⟨y, hy, hxy, hfits'⟩ := hst.instructions i x hx
  exact ⟨h.kept, h.ready, y, hy, hxy.circuit.trans hc, hfits' h.ready hfits⟩

theorem InScope.mono {args : List Bit} (h : s.InScope args i) (hst : s.Grows loose t) : t.InScope args i := by
  obtain ⟨x, hx, hmeasure, hargs⟩ := h
  obtain ⟨y, hy, hxy, -⟩ := hst.instructions i x hx
  refine ⟨y, hy, hxy.isMeasure.trans hmeasure, ?_⟩
  rw [hxy.args]
  exact hargs

theorem Part.mono (h : s.Part lost loose x i) (hst : s.Grows loose t) : t.Part lost loose x i :=
  ⟨h.toMember.mono hst, h.scope.mono hst⟩

/-- What a gate may hold depends on its circuit and on its arguments. -/
theorem Part.congr (h : s.Part lost loose x i) (hcircuit : y.circuit = x.circuit) (hargs : y.args = x.args) :
    s.Part lost loose y i := by
  refine ⟨?_, ?_⟩
  · rw [hcircuit]
    exact h.toMember
  · rw [hargs]
    exact h.scope

theorem Fits.mono (h : s.Fits x) (hst : s.Grows loose t) : t.Fits x := by
  obtain ⟨c, hc, hx⟩ := h
  obtain ⟨d, hd, hregs, -⟩ := hst.circuits _ c hc
  exact ⟨d, hd, hx.mono hregs⟩

theorem Formed.mono (h : s.Formed libs x) (hst : s.Grows loose t) : t.Formed libs x := by
  refine ⟨h.proper, fun hbarrier hmeasure => ?_, h.finite⟩
  obtain ⟨c, hc, hnative⟩ := h.home hbarrier hmeasure
  obtain ⟨d, hd, -, hlibrary⟩ := hst.circuits _ c hc
  exact ⟨d, hd, hlibrary ▸ hnative⟩

/-- Barriers and measurements do not depend on a library. -/
theorem formed_of_no_gate (h : (x.isBarrier || x.isMeasure)) (hx : ∀ lib, x.IsProper lib) : s.Formed libs x := by
  refine ⟨fun lib _ => hx lib, fun hbarrier hmeasure => ?_, fun hatomic => ?_⟩
  · rw [hbarrier, hmeasure] at h
    exact absurd h (by decide)
  · unfold Instruction.isBarrier Instruction.isMeasure at h
    unfold Instruction.isAtomic at hatomic
    cases hop : x.operation <;> rw [hop] at h hatomic <;> cases h <;> cases hatomic

/-- Of a library, a gate with a body only asks for a name that is free. -/
theorem formed_of_composite (hop : x.operation = .composite name body inverted) (hargs : x.args ≠ []) {c : Circuit}
    (hc : s.circuit? x.circuit = some c) (hname : isIdentifier name) (hfree : c.library.contains name = false) :
    s.Formed libs x := by
  refine ⟨fun lib _ => ?_, fun _ _ => ⟨c, hc, ?_⟩, fun hatomic => ?_⟩
  · rw [Instruction.IsProper, hop]
    exact hargs
  · rw [Instruction.IsNative, hop]
    exact ⟨hname, hfree⟩
  · rw [Instruction.isAtomic, hop] at hatomic
    cases hatomic

section

variable (h : s.Formed libs x)

include h

theorem Formed.isProper (hatomic : x.isAtomic = false) (lib : Library) : x.IsProper lib :=
  h.proper lib fun h => absurd (hatomic.symm.trans h) (by decide)

theorem Formed.isNative (hop : x.operation = .atomic f) {c : Circuit}
    (hc : s.circuit? x.circuit = some c) : c.library.find? f.name = some f ∧
      (c.library.IsAligned → (c.library.controlledBy x.controlBits.length f).isSome) := by
  obtain ⟨d, hd, hnative⟩ := h.home (by rw [Instruction.isBarrier, hop]) (by rw [Instruction.isMeasure, hop])
  cases hc.symm.trans hd
  rw [Instruction.IsNative, hop] at hnative
  exact hnative

theorem Formed.composite (hop : x.operation = .composite name body inverted) : x.args ≠ [] ∧
      ∃ c, s.circuit? x.circuit = some c ∧ isIdentifier name ∧ c.library.contains name = false := by
  have hproper := h.isProper (by rw [Instruction.isAtomic, hop]) ⟨[]⟩
  obtain ⟨c, hc, hnative⟩ := h.home (by rw [Instruction.isBarrier, hop]) (by rw [Instruction.isMeasure, hop])
  rw [Instruction.IsProper, hop] at hproper
  rw [Instruction.IsNative, hop] at hnative
  exact ⟨hproper, c, hc, hnative⟩

theorem Formed.putBody (hop : x.operation = .composite name body inverted)
    (body' : List InstructionId) (inverted' : Bool) :
    s.Formed libs { x with operation := .composite name body' inverted' } := by
  obtain ⟨hargs, c, hc, hname, hfree⟩ := h.composite hop
  exact formed_of_composite rfl hargs hc hname hfree

end

theorem Fits.congr (h : s.Fits x) (hcircuit : y.circuit = x.circuit) (hargs : y.splitArgs = x.splitArgs)
    (hcontrols : y.controls = x.controls) (hcondition : y.condition = x.condition) : s.Fits y := by
  obtain ⟨c, hc, hx⟩ := h
  exact ⟨c, by rw [hcircuit, hc], hx.congr hargs hcontrols hcondition⟩

theorem instruction?_lt (h : s.instruction? i = some x) : i < s.instructions.size :=
  (Array.getElem?_eq_some_iff.mp h).1

theorem Grows.size_le (h : s.Grows loose t) : s.instructions.size ≤ t.instructions.size := by
  by_contra hlt
  rw [Nat.not_le] at hlt
  obtain ⟨y, hy, -⟩ := h.instructions t.instructions.size _ (Array.getElem?_eq_getElem hlt)
  exact Nat.lt_irrefl _ (instruction?_lt hy)

theorem Known.mono (h : s.Known lost i) (hst : s.Grows loose t) : t.Known lost i :=
  ⟨h.1, Nat.lt_of_lt_of_le h.2 hst.size_le⟩

theorem Member.known (h : s.Member lost loose c i) : s.Known lost i := by
  obtain ⟨x, hx, -⟩ := h.fits
  exact ⟨h.kept, instruction?_lt hx⟩

theorem Member.exists_instruction (h : s.Member lost loose c i) : ∃ x, s.instruction? i = some x ∧ x.circuit = c := by
  obtain ⟨x, hx, hc, -⟩ := h.fits
  exact ⟨x, hx, hc⟩

/-! ## Single writes -/

def push (s : Store) (x : Instruction) : Store := { s with instructions := s.instructions.push x }

def pushCircuit (s : Store) (x : Circuit) : Store := { s with circuits := s.circuits.push x }

def putCircuit (s : Store) (c : CircuitId) (x : Circuit) : Store :=
  { s with circuits := s.circuits.setIfInBounds c x }

theorem instruction?_push (s : Store) (x : Instruction) (i : InstructionId) :
    (s.push x).instruction? i = if i = s.instructions.size then some x else s.instruction? i :=
  Array.getElem?_push

theorem instruction?_push_self (s : Store) (x : Instruction) :
    (s.push x).instruction? s.instructions.size = some x := by
  rw [instruction?_push, if_pos rfl]

theorem instruction?_push_of_some (h : s.instruction? i = some y) : (s.push x).instruction? i = some y := by
  rw [instruction?_push, if_neg (Nat.ne_of_lt (instruction?_lt h)), h]

theorem instruction?_put_of_some (h : s.instruction? i = some x) (j : InstructionId) :
    (s.put i y).instruction? j = if j = i then some y else s.instruction? j := by
  split
  · next hij =>
    subst hij
    exact s.instruction?_put j y (instruction?_lt h)
  · next hij => exact s.instruction?_put_ne i j y fun h => hij h.symm

theorem circuit?_lt {x : Circuit} (h : s.circuit? c = some x) : c < s.circuits.size :=
  (Array.getElem?_eq_some_iff.mp h).1

theorem circuit?_pushCircuit (s : Store) (x : Circuit) (c : CircuitId) :
    (s.pushCircuit x).circuit? c = if c = s.circuits.size then some x else s.circuit? c :=
  Array.getElem?_push

theorem circuit?_pushCircuit_of_some {x y : Circuit} (h : s.circuit? c = some y) :
    (s.pushCircuit x).circuit? c = some y := by
  rw [circuit?_pushCircuit, if_neg (Nat.ne_of_lt (circuit?_lt h)), h]

theorem circuit?_putCircuit {x y : Circuit} (h : s.circuit? c = some x) (d : CircuitId) :
    (s.putCircuit c y).circuit? d = if d = c then some y else s.circuit? d := by
  have hset : (s.putCircuit c y).circuit? d = (s.circuits.setIfInBounds c y)[d]? := rfl
  rw [hset, Array.getElem?_setIfInBounds, if_pos (circuit?_lt h)]
  by_cases hcd : d = c
  · rw [if_pos hcd, if_pos hcd.symm]
  · rw [if_neg hcd, if_neg fun h => hcd h.symm]
    rfl

theorem Grows.push (s : Store) (x : Instruction) : s.Grows loose (s.push x) where
  circuits _ y hy := ⟨y, hy, List.Subset.refl _, rfl⟩
  instructions _ y hy := ⟨y, instruction?_push_of_some hy, .refl y, fun _ h => h⟩

theorem Grows.put (hx : s.instruction? i = some x) (hxy : x.Alike y) (hfits : i ∉ loose → s.Fits x → s.Fits y) :
    s.Grows loose (s.put i y) where
  circuits _ z hz := ⟨z, hz, List.Subset.refl _, rfl⟩
  instructions j z hz := by
    rw [instruction?_put_of_some hx]
    split
    · next hji =>
      subst hji
      cases hx.symm.trans hz
      exact ⟨y, rfl, hxy, hfits⟩
    · exact ⟨z, hz, .refl z, fun _ h => h⟩

theorem Grows.putCircuit {x y : Circuit} (hx : s.circuit? c = some x) (h : x.registers ⊆ y.registers)
    (hlibrary : y.library = x.library) : s.Grows loose (s.putCircuit c y) := by
  have hcircuits : ∀ d z, s.circuit? d = some z →
      ∃ w, (s.putCircuit c y).circuit? d = some w ∧ z.registers ⊆ w.registers ∧ w.library = z.library := by
    intro d z hz
    rw [circuit?_putCircuit hx]
    split
    · next hdc =>
      subst hdc
      cases hx.symm.trans hz
      exact ⟨y, rfl, h, hlibrary⟩
    · exact ⟨z, hz, List.Subset.refl _, rfl⟩
  refine ⟨hcircuits, fun i z hz => ⟨z, hz, .refl z, fun _ hfits => ?_⟩⟩
  obtain ⟨d, hd, hz⟩ := hfits
  obtain ⟨e, he, hde, -⟩ := hcircuits _ d hd
  exact ⟨e, he, hz.mono hde⟩

theorem Grows.pushCircuit (s : Store) (x : Circuit) : s.Grows loose (s.pushCircuit x) := by
  refine ⟨fun c y hy => ⟨y, circuit?_pushCircuit_of_some hy, List.Subset.refl _, rfl⟩, ?_⟩
  intro i z hz
  refine ⟨z, hz, .refl z, ?_⟩
  rintro - ⟨c, hc, hfits⟩
  exact ⟨c, circuit?_pushCircuit_of_some hc, hfits⟩

/-- Notes and numbers have no part in what a step may do. -/
theorem Grows.of_eq (hinstructions : t.instructions = s.instructions) (hcircuits : t.circuits = s.circuits) :
    s.Grows loose t := by
  have hcircuit : ∀ {c x}, s.circuit? c = some x → t.circuit? c = some x := by
    intro c x hx
    rw [circuit?, hcircuits]
    exact hx
  refine ⟨fun c x hx => ⟨x, hcircuit hx, List.Subset.refl _, rfl⟩, fun i x hx => ⟨x, ?_, .refl x, ?_⟩⟩
  · rw [instruction?, hinstructions]
    exact hx
  · rintro - ⟨c, hc, hfits⟩
    exact ⟨c, hcircuit hc, hfits⟩

namespace Orderly

variable {x : Instruction}

section

variable (h : s.Orderly libs lost loose)

include h

/-- A new instruction is neither lost nor loose. -/
theorem size_not_mem : s.instructions.size ∉ lost ∧ s.instructions.size ∉ loose :=
  ⟨fun hmem => Nat.lt_irrefl _ (h.lost_lt _ hmem), fun hmem => Nat.lt_irrefl _ (h.loose_lt _ hmem)⟩

theorem known_push (x : Instruction) : (s.push x).Known lost s.instructions.size :=
  ⟨h.size_not_mem.1, instruction?_lt (s.instruction?_push_self x)⟩

/-- What stands in the body of a gate. -/
theorem part (hi : i ∉ lost) (hx : s.instruction? i = some x) (hop : x.operation = .composite name body inverted) :
    ∀ j ∈ body, s.Part lost loose x j := by
  have hbody := h.body i x hi hx
  rw [Instruction.inside, hop] at hbody
  exact hbody

/-- A new instruction that nobody holds yet may be changed until it is finished. -/
theorem push_loose (hx : s.Formed libs x) (hbody : ∀ j ∈ x.inside, s.Part lost loose x j) :
    (s.push x).Orderly libs lost (insert s.instructions.size loose) := by
  have hmember : ∀ {c i}, s.Member lost loose c i → (s.push x).Member lost (insert s.instructions.size loose) c i := by
    intro c i hi
    obtain ⟨hkept, hready, y, hy, hrest⟩ := hi
    refine ⟨hkept, ?_, y, instruction?_push_of_some hy, hrest⟩
    rintro (rfl | hmem)
    · exact Nat.lt_irrefl _ (instruction?_lt hy)
    · exact hready hmem
  have hpart : ∀ {y i}, s.Part lost loose y i → (s.push x).Part lost (insert s.instructions.size loose) y i :=
    fun hi => ⟨hmember hi.toMember, hi.scope.mono (.push s x : s.Grows loose _)⟩
  refine ⟨?_, ?_, ?_, ?_, h.libraries, h.names, h.short, fun c y hy i hi => hmember (h.data c y hy i hi), ?_, ?_⟩
  · intro i hi
    rw [Store.push, Array.size_push]
    exact Nat.lt_succ_of_lt (h.lost_lt i hi)
  · rw [Store.push, Array.size_push]
    rintro i (rfl | hi)
    · exact Nat.lt_succ_self _
    · exact Nat.lt_succ_of_lt (h.loose_lt i hi)
  · intro i y hy j hj
    rw [instruction?_push] at hy
    rw [Store.push, Array.size_push]
    split at hy
    · cases hy
      exact Nat.lt_succ_of_lt (hbody j hj).known.2
    · exact Nat.lt_succ_of_lt (h.inside_lt i y hy j hj)
  · intro i y hy
    rw [instruction?_push] at hy
    split at hy
    · cases hy
      exact hx.finite
    · exact h.finite i y hy
  · intro i y hi hy
    have hgrows : s.Grows loose (s.push x) := .push s x
    rw [instruction?_push] at hy
    split at hy
    · cases hy
      exact hx.mono hgrows
    · exact (h.formed i y hi hy).mono hgrows
  · intro i y hi hy j hj
    rw [instruction?_push] at hy
    split at hy
    · cases hy
      exact hpart (hbody j hj)
    · exact hpart (h.body i y hi hy j hj)

end

/-- What is finished is no longer loose. -/
theorem settle {more : Set InstructionId} (h : s.Orderly libs lost more) (hsub : loose ⊆ more) :
    s.Orderly libs lost loose := by
  have hmember : ∀ {c i}, s.Member lost more c i → s.Member lost loose c i := fun hi =>
    ⟨hi.kept, fun hmem => hi.ready (hsub hmem), hi.fits⟩
  exact ⟨h.lost_lt, fun i hi => h.loose_lt i (hsub hi), h.inside_lt, h.finite, h.libraries, h.names, h.short,
    fun c x hx i hi => hmember (h.data c x hx i hi), h.formed,
    fun i x hi hx j hj => ⟨hmember (h.body i x hi hx j hj).toMember, (h.body i x hi hx j hj).scope⟩⟩

section

variable (h : s.Orderly libs lost loose)

include h

theorem push (hx : s.Formed libs x) (hbody : ∀ j ∈ x.inside, s.Part lost loose x j) :
    (s.push x).Orderly libs lost loose :=
  (h.push_loose hx hbody).settle (Set.subset_insert _ _)

theorem put (hx : s.instruction? i = some x)
    (hxy : x.Alike y) (hfits : i ∉ loose → s.Fits x → s.Fits y) (hy : s.Formed libs y)
    (hbody : ∀ j ∈ y.inside, s.Part lost loose y j) : (s.put i y).Orderly libs lost loose := by
  have hgrows : s.Grows loose (s.put i y) := .put hx hxy hfits
  refine ⟨?_, ?_, ?_, ?_, h.libraries, h.names, h.short, fun c z hz j hj => (h.data c z hz j hj).mono hgrows, ?_, ?_⟩
  · rw [Store.put, Array.size_setIfInBounds]
    exact h.lost_lt
  · rw [Store.put, Array.size_setIfInBounds]
    exact h.loose_lt
  · intro j z hz k hk
    rw [instruction?_put_of_some hx] at hz
    rw [Store.put, Array.size_setIfInBounds]
    split at hz
    · cases hz
      exact (hbody k hk).known.2
    · exact h.inside_lt j z hz k hk
  · intro j z hz
    rw [instruction?_put_of_some hx] at hz
    split at hz
    · cases hz
      exact hy.finite
    · exact h.finite j z hz
  · intro j z hj hz
    rw [instruction?_put_of_some hx] at hz
    split at hz
    · cases hz
      exact hy.mono hgrows
    · exact (h.formed j z hj hz).mono hgrows
  · intro j z hj hz k hk
    rw [instruction?_put_of_some hx] at hz
    split at hz
    · cases hz
      exact (hbody k hk).mono hgrows
    · exact (h.body j z hj hz k hk).mono hgrows

theorem putCircuit {x y : Circuit} (hx : s.circuit? c = some x)
    (hregs : x.registers ⊆ y.registers) (hlibrary : y.library = x.library)
    (hnames : (y.registers.map Register.name).Nodup) (hshort : ∀ r ∈ y.registers, Text.isShort r.size)
    (hdata : ∀ i ∈ y.data, s.Member lost loose c i) : (s.putCircuit c y).Orderly libs lost loose := by
  have hgrows : s.Grows loose (s.putCircuit c y) := .putCircuit hx hregs hlibrary
  -- What holds of the old circuits and of the new one holds of all of them.
  have hall : ∀ P : CircuitId → Circuit → Prop, P c y → (∀ d z, s.circuit? d = some z → P d z) →
      ∀ d z, (s.putCircuit c y).circuit? d = some z → P d z := by
    intro P hnew hold d z hz
    rw [circuit?_putCircuit hx] at hz
    split at hz
    · next hdc =>
      cases hz
      exact hdc ▸ hnew
    · exact hold d z hz
  exact ⟨h.lost_lt, h.loose_lt, h.inside_lt, h.finite, hall _ (hlibrary ▸ h.libraries c x hx) h.libraries,
    hall _ hnames h.names, hall _ hshort h.short,
    hall _ (fun i hi => (hdata i hi).mono hgrows) fun d z hz i hi => (h.data d z hz i hi).mono hgrows,
    fun i z hi hz => (h.formed i z hi hz).mono hgrows, fun i z hi hz j hj => (h.body i z hi hz j hj).mono hgrows⟩

theorem pushCircuit {x : Circuit} (hlibrary : x.library ∈ libs)
    (hregs : x.registers = []) (hdata : x.data = []) : (s.pushCircuit x).Orderly libs lost loose := by
  have hgrows : s.Grows loose (s.pushCircuit x) := .pushCircuit s x
  have hall : ∀ P : CircuitId → Circuit → Prop, (∀ c, P c x) → (∀ c y, s.circuit? c = some y → P c y) →
      ∀ c y, (s.pushCircuit x).circuit? c = some y → P c y := by
    intro P hnew hold c y hy
    rw [circuit?_pushCircuit] at hy
    split at hy
    · cases hy
      exact hnew c
    · exact hold c y hy
  refine ⟨h.lost_lt, h.loose_lt, h.inside_lt, h.finite, hall _ (fun _ => hlibrary) h.libraries,
    hall _ (fun _ => ?_) h.names, hall _ (fun _ => ?_) h.short,
    hall _ (fun _ => ?_) fun c y hy i hi => (h.data c y hy i hi).mono hgrows,
    fun i z hi hz => (h.formed i z hi hz).mono hgrows, fun i z hi hz j hj => (h.body i z hi hz j hj).mono hgrows⟩
  · rw [hregs]
    exact List.nodup_nil
  · rw [hregs]
    exact List.forall_mem_nil _
  · rw [hdata]
    exact List.forall_mem_nil _

/-- Notes and numbers have no part in the invariant. -/
theorem of_eq (hinstructions : t.instructions = s.instructions)
    (hcircuits : t.circuits = s.circuits) : t.Orderly libs lost loose := by
  have hi : t.instruction? = s.instruction? := by
    funext i
    rw [instruction?, hinstructions, instruction?]
  have hc : t.circuit? = s.circuit? := by
    funext c
    rw [circuit?, hcircuits, circuit?]
  have hgrows : s.Grows loose t := .of_eq hinstructions hcircuits
  refine ⟨?_, ?_, ?_, ?_, ?_, ?_, ?_, ?_, ?_, ?_⟩
  · rw [hinstructions]
    exact h.lost_lt
  · rw [hinstructions]
    exact h.loose_lt
  · rw [hi, hinstructions]
    exact h.inside_lt
  · rw [hi]
    exact h.finite
  · rw [hc]
    exact h.libraries
  · rw [hc]
    exact h.names
  · rw [hc]
    exact h.short
  · rw [hc]
    exact fun c x hx i hi => (h.data c x hx i hi).mono hgrows
  · rw [hi]
    exact fun i x hi hx => (h.formed i x hi hx).mono hgrows
  · rw [hi]
    exact fun i x hi hx j hj => (h.body i x hi hx j hj).mono hgrows

end

end Orderly

namespace Sound

theorem library (h : s.Sound lib lost loose) (c : CircuitId) (x : Circuit) (hx : s.circuit? c = some x) :
    x.library = lib :=
  Set.mem_singleton_iff.mp (h.libraries c x hx)

theorem proper (h : s.Sound lib lost loose) (i : InstructionId) (x : Instruction) (hi : i ∉ lost)
    (hx : s.instruction? i = some x) : x.IsProper lib :=
  (h.formed i x hi hx).proper lib fun _ => ⟨rfl, h.regular⟩

end Sound

end Store

end QasmCircuit
