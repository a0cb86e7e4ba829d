import QasmCircuit.Proofs.Circuit.Placed
import QasmCircuit.Proofs.Program.Resolved

/-!
# Operands of statements

What an operand names is looked up among the registers of a program: a register or one of its bits
(`Target.operand?`). An application to registers is repeated for every row of bits (`rows?`), and where the operands go
together there are such rows, with distinct bits of the registers.

A table has one entry for a name, so that looking a name up and listing the table come to the same. In a row,
a bit stands for itself and a register for its bit at the position of the row. Two rows differ in all registers,
and within a row bits are distinct because names are.
-/

namespace QasmCircuit

open Outcome List Register

variable {c : Circuit} {args : List Argument} {regs : List Register} {kind : RegisterKind} {b : Bit}
  {size : Nat} {t : Target} {ts : List Target}

/-! ## Tables with one entry for a name -/

section

variable {α : Type} {entries : List (String × α)} {name : String} {a : α}

theorem mem_of_lookup (h : entries.lookup name = some a) : (name, a) ∈ entries := by
  induction entries with
  | nil => cases h
  | cons e rest ih =>
    rw [lookup_cons] at h
    cases he : name == e.1 with
    | true =>
      rw [he] at h
      rw [beq_iff_eq.mp he, ← Option.some.inj h]
      exact mem_cons_self
    | false =>
      rw [he] at h
      exact mem_cons_of_mem _ (ih h)

theorem lookup_of_mem (hnames : (entries.map Prod.fst).Nodup) (h : (name, a) ∈ entries) :
    entries.lookup name = some a := by
  induction entries with
  | nil => exact absurd h not_mem_nil
  | cons e rest ih =>
    rw [map_cons, nodup_cons] at hnames
    rw [lookup_cons]
    rcases mem_cons.mp h with rfl | h
    · rw [beq_self_eq_true name]
    · have hne : (name == e.1) = false :=
        beq_eq_false_iff_ne.mpr fun he => hnames.1 (he ▸ mem_map_of_mem h)
      rw [hne]
      exact ih hnames.2 h

theorem lookup_reverse (hnames : (entries.map Prod.fst).Nodup) (name : String) :
    entries.reverse.lookup name = entries.lookup name := by
  have hnames' : (entries.reverse.map Prod.fst).Nodup := by
    rw [map_reverse]
    exact nodup_reverse.mpr hnames
  refine Option.ext fun a => ⟨fun h => ?_, fun h => ?_⟩
  · exact lookup_of_mem hnames (mem_reverse.mp (mem_of_lookup h))
  · exact lookup_of_mem hnames' (mem_reverse.mpr (mem_of_lookup h))

end

/-! ## Registers of a circuit -/

namespace Circuit

variable {r : Register}

theorem find?_register (hnames : (regs.map Register.name).Nodup)
    (hr : r ∈ regs) : (regs.find? fun q => q.name == r.name) = some r := by
  cases hfind : regs.find? fun q => q.name == r.name with
  | none => exact absurd (beq_self_eq_true r.name) (find?_eq_none.mp hfind r hr)
  | some q =>
    have hname := beq_iff_eq.mp (@find?_some _ (fun q : Register => q.name == r.name) q regs hfind)
    rw [inj_on_of_nodup_map hnames (mem_of_find?_eq_some hfind) hr hname]

variable (hnames : (c.registers.map Register.name).Nodup)
include hnames

theorem hasRegister_of_mem (hr : r ∈ c.registers) : c.hasRegister r := by
  rw [hasRegister, register?, find?_register hnames hr]
  exact beq_self_eq_true _

theorem checkQuantum_of_mem (hr : r ∈ c.registers) (hkind : r.kind = .quantum) :
    c.checkQuantum (.register r) = .ok () := by
  unfold checkQuantum
  dsimp only
  rw [if_pos]
  rw [Bool.and_eq_true]
  exact ⟨beq_iff_eq.mpr hkind, hasRegister_of_mem hnames hr⟩

theorem checkClassical_of_mem (hr : r ∈ c.registers) (hkind : r.kind = .classical) :
    c.checkClassical (.register r) = .ok () := by
  unfold checkClassical
  dsimp only
  rw [if_pos]
  rw [Bool.and_eq_true]
  exact ⟨beq_iff_eq.mpr hkind, hasRegister_of_mem hnames hr⟩

theorem checkBit_of_isIn (hb : b.IsIn c.registers kind) (label : String) :
    c.checkBit kind label (.bit b) = .ok () := by
  obtain ⟨hkind, r, hr, hname, hrkind, hindex⟩ := hb
  have hfind : c.register? b.register.name = some r := hname ▸ find?_register hnames hr
  unfold checkBit
  dsimp only
  rw [hfind]
  dsimp only
  rw [if_neg, if_pos hindex]
  rw [Bool.or_eq_true, decide_eq_true_eq, decide_eq_true_eq, not_or, not_not, not_not]
  exact ⟨hrkind, hkind⟩

theorem checkCondition_of_mem {v : Int} (hr : r ∈ c.registers) (hkind : r.kind = .classical)
    (hfits : r.fits v) : c.checkCondition (.register r) (.datum (.int v)) = .ok (r, v) := by
  have hclassical : r.isClassical := beq_iff_eq.mpr hkind
  unfold checkCondition
  dsimp only
  rw [if_pos hclassical, checkClassical_of_mem hnames hr hkind]
  dsimp only [bind, Except.bind]
  rw [if_pos hfits]
  rfl

end Circuit

/-! ## Rows of bits -/

/-- A bit or a whole register of a kind that some registers have. -/
def Argument.IsOperand (regs : List Register) (kind : RegisterKind) : Argument → Prop
  | .bit b => b.IsIn regs kind
  | .register r => r ∈ regs ∧ r.kind = kind
  | _ => False

def Argument.bits : Argument → List Bit
  | .bit b => [b]
  | .register r => r.bits
  | _ => []

/-- Whether an operand has few enough bits to list them. -/
def Argument.isListable : Argument → Bool
  | .register r => r.size < Register.lengthLimit
  | _ => true

theorem Argument.isListable_bits (bits : List Bit) : (bits.map Argument.bit).all isListable := by
  rw [all_map]
  exact all_eq_true.mpr fun _ _ => rfl

/-- The bit of an operand in a row. -/
def Argument.bitAt? (index : Nat) : Argument → Option Bit
  | .bit b => some b
  | .register r => (r.bit (.int index)).toOption
  | _ => none

/-- The rows of an application to some operands: one row of bits, or one for each position of the registers. -/
def rows? (args : List Argument) : Option (List (List Bit)) :=
  match Action.registerSizes args with
  | [] => (args.mapM (Argument.bitAt? 0)).map fun bits => [bits]
  | [size] => (List.range size).mapM fun index => args.mapM (Argument.bitAt? index)
  | _ => none

variable {r : Register} {index : Nat}

theorem Register.bit_eq_ok {i : Int} : r.bit (.int i) = .ok b ↔ b.register = r ∧ (b.index : Int) = i := by
  unfold bit
  dsimp only
  constructor
  · intro h
    split at h
    · next hi =>
      cases h
      exact ⟨rfl, Int.toNat_of_nonneg hi.1⟩
    · cases h
  · rintro ⟨rfl, rfl⟩
    have hindex := b.index_lt
    rw [dif_pos ⟨Int.natCast_nonneg _, hindex⟩]
    rfl

theorem Register.bit_of_lt {i : Nat} (h : i < r.size) : r.bit (.int i) = .ok ⟨r, i, h⟩ :=
  bit_eq_ok.mpr ⟨rfl, rfl⟩

namespace Action

variable {rs : List (List Bit)} {bits : List Bit}

theorem row_eq_ok : row index args = .ok bits ↔ args.mapM (Argument.bitAt? index) = some bits := by
  rw [row, mapM_eq_ok, mapM_eq_some]
  constructor
  · refine fun h => h.imp fun a b hab => ?_
    cases a with
    | bit b' => exact congrArg some (Except.ok.inj hab)
    | register r => exact toOption_eq_some.mpr hab
    | _ => cases hab
  · refine fun h => h.imp fun a b hab => ?_
    cases a with
    | bit b' => exact congrArg Except.ok (Option.some.inj hab)
    | register r => exact toOption_eq_some.mp hab
    | _ => cases hab

theorem mem_registerSizes : size ∈ registerSizes args ↔ ∃ r, .register r ∈ args ∧ r.size = size := by
  unfold registerSizes
  rw [mem_eraseDups, mem_filterMap]
  constructor
  · rintro ⟨a, ha, hsize⟩
    cases a with
    | register r => exact ⟨r, ha, Option.some.inj hsize⟩
    | _ => cases hsize
  · rintro ⟨r, hr, rfl⟩
    exact ⟨.register r, hr, rfl⟩

theorem registerSizes_eq_nil : registerSizes args = [] ↔ ∀ r, .register r ∉ args := by
  rw [eq_nil_iff_forall_not_mem]
  exact ⟨fun h r hr => h r.size (mem_registerSizes.mpr ⟨r, hr, rfl⟩), fun h size hsize =>
    (mem_registerSizes.mp hsize).elim fun r hr => h r hr.1⟩

theorem registerSizes_of_forall (hr : .register r ∈ args)
    (h : ∀ r, .register r ∈ args → r.size = size) : registerSizes args = [size] := by
  refine Program.eraseDups_of_forall_eq ?_ fun n hn => ?_
  · exact mem_eraseDups.mp (mem_registerSizes.mpr ⟨r, hr, h r hr⟩)
  · obtain ⟨q, hq, rfl⟩ := mem_registerSizes.mp (mem_eraseDups.mpr hn)
    exact h q hq

theorem mapM_bitAt?_of_mem_rows? (h : rows? args = some rs) :
    ∀ bits ∈ rs, ∃ index, args.mapM (Argument.bitAt? index) = some bits := by
  intro bits hbits
  unfold rows? at h
  split at h
  · obtain ⟨only, honly, rfl⟩ := Option.map_eq_some_iff.mp h
    rw [mem_singleton.mp hbits]
    exact ⟨0, honly⟩
  · obtain ⟨index, -, hrow⟩ := exists_of_forall₂ (mapM_eq_some.mp h) bits hbits
    exact ⟨index, hrow⟩
  · cases h

theorem exists_of_rows? (h : rows? args = some rs) (hargs : ∀ r, .register r ∉ args) : ∃ bits, rs = [bits] := by
  rw [rows?, registerSizes_eq_nil.mpr hargs] at h
  obtain ⟨bits, -, rfl⟩ := Option.map_eq_some_iff.mp h
  exact ⟨bits, rfl⟩

theorem exists_rows? (hargs : ∀ a ∈ args, ∃ kind, a.IsOperand regs kind)
    (hsize : ∀ q r, .register q ∈ args → .register r ∈ args → q.size = r.size) : ∃ rs, rows? args = some rs := by
  have hrow : ∀ index, (∀ r, .register r ∈ args → index < r.size) →
      ∃ bits, args.mapM (Argument.bitAt? index) = some bits := by
    intro index hindex
    have hall : ∀ a ∈ args, ∃ b, a.bitAt? index = some b := by
      intro a ha
      cases a with
      | bit b => exact ⟨b, rfl⟩
      | register r => exact ⟨_, toOption_eq_some.mpr (bit_of_lt (hindex r ha))⟩
      | _ => exact (hargs _ ha).elim fun _ h => h.elim
    obtain ⟨bits, hbits⟩ := Outcome.exists_forall₂ hall
    exact ⟨bits, mapM_eq_some.mpr hbits⟩
  by_cases hreg : ∃ r, .register r ∈ args
  · obtain ⟨r, hr⟩ := hreg
    rw [rows?, registerSizes_of_forall hr fun q hq => hsize q r hq hr]
    have hall : ∀ index ∈ List.range r.size, ∃ bits, args.mapM (Argument.bitAt? index) = some bits := by
      intro index hindex
      refine hrow index fun q hq => ?_
      rw [hsize q r hq hr]
      exact mem_range.mp hindex
    obtain ⟨rs, hrs⟩ := Outcome.exists_forall₂ hall
    exact ⟨rs, mapM_eq_some.mpr hrs⟩
  · have hnone : ∀ r, .register r ∉ args := fun r hr => hreg ⟨r, hr⟩
    obtain ⟨bits, hbits⟩ := hrow 0 fun r hr => absurd hr (hnone r)
    rw [rows?, registerSizes_eq_nil.mpr hnone]
    exact ⟨[bits], congrArg (Option.map _) hbits⟩

/-- Rows of bits, where no operand is a whole register. -/
theorem map_bit_of_mapM (h : args.mapM (Argument.bitAt? index) = some bits)
    (hargs : ∀ r, .register r ∉ args) : bits.map .bit = args := by
  rw [mapM_eq_some] at h
  induction h with
  | nil => rfl
  | @cons a b args bits hab _ ih =>
    have hrest := ih fun r hr => hargs r (mem_cons_of_mem _ hr)
    cases a with
    | bit b' =>
      cases hab
      rw [map_cons, hrest]
    | register r => exact absurd mem_cons_self (hargs r)
    | _ => cases hab

theorem gateRows_of_rows? (h : rows? args = some rs) : gateRows args = .ok (rs.map fun bits => bits.map .bit) := by
  unfold rows? at h
  unfold gateRows
  split at h
  · next hsizes =>
    obtain ⟨bits, hbits, rfl⟩ := Option.map_eq_some_iff.mp h
    rw [hsizes]
    show Except.ok [args] = _
    rw [map_singleton, map_bit_of_mapM hbits (registerSizes_eq_nil.mp hsizes)]
  · next size hsizes =>
    rw [hsizes, Slots.pick?_singleton]
    dsimp only
    rw [mapM_eq_ok, forall₂_map_right_iff]
    refine (mapM_eq_some.mp h).imp fun index bits hbits => ?_
    exact bind_eq_ok.mpr ⟨bits, row_eq_ok.mpr hbits, rfl⟩
  · cases h

section

variable (hnames : (c.registers.map Register.name).Nodup)
include hnames

theorem checkOperand_of_isOperand (hkind : kind ≠ .plain) {a : Argument}
    (ha : a.IsOperand c.registers kind) (name : String) : checkOperand c name a = .ok () := by
  cases a with
  | bit b => rfl
  | register r =>
    obtain ⟨hr, hrkind⟩ := ha
    unfold checkOperand
    dsimp only
    cases kind with
    | quantum =>
      rw [hrkind]
      exact Circuit.checkQuantum_of_mem hnames hr hrkind
    | classical =>
      rw [hrkind]
      exact Circuit.checkClassical_of_mem hnames hr hrkind
    | plain => exact absurd rfl hkind
  | _ => exact ha.elim

theorem broadcast_of_rows?
    (hargs : ∀ a ∈ args, ∃ kind ≠ RegisterKind.plain, a.IsOperand c.registers kind) (h : rows? args = some rs)
    (name : String) : broadcast c name args = .ok rs := by
  refine bind_eq_ok.mpr ⟨(), forM_eq_ok.mpr fun a ha => ?_, ?_⟩
  · obtain ⟨kind, hkind, hoperand⟩ := hargs a ha
    exact checkOperand_of_isOperand hnames hkind hoperand name
  · unfold rows? at h
    generalize registerSizes args = sizes at h ⊢
    rcases sizes with _ | ⟨size, _ | ⟨other, more⟩⟩
    · obtain ⟨bits, hbits, rfl⟩ := Option.map_eq_some_iff.mp h
      exact bind_eq_ok.mpr ⟨bits, row_eq_ok.mpr hbits, rfl⟩
    · exact mapM_eq_ok.mpr ((mapM_eq_some.mp h).imp fun _ _ => row_eq_ok.mpr)
    · cases h

/-- The qubits of declared operands are listed, unless a register has too many. -/
theorem gatherQubits_of_isOperand (hargs : ∀ a ∈ args, a.IsOperand c.registers .quantum)
    (problem : String → Problem) : gatherQubits c problem args =
      if args.all Argument.isListable then .ok (args.flatMap Argument.bits) else .error .tooLarge := by
  induction args with
  | nil => rfl
  | cons a rest ih =>
    rw [forall_mem_cons] at hargs
    have hrest := ih hargs.2
    cases a with
    | bit b =>
      rw [gatherQubits, hrest, all_cons, show (Argument.bit b).isListable = true from rfl, Bool.true_and]
      split <;> rfl
    | register r =>
      obtain ⟨hr, hkind⟩ := hargs.1
      have hquantum : r.isQuantum := beq_iff_eq.mpr hkind
      rw [gatherQubits, if_pos hquantum, Circuit.checkQuantum_of_mem hnames hr hkind, hrest, all_cons,
        Argument.isListable]
      by_cases hsize : lengthLimit ≤ r.size
      · rw [decide_eq_false (Nat.not_lt.mpr hsize), Bool.false_and, if_neg Bool.false_ne_true, if_pos hsize]
        rfl
      · rw [decide_eq_true (Nat.lt_of_not_le hsize), Bool.true_and, if_neg hsize]
        split <;> rfl
    | _ => exact hargs.1.elim

theorem gateArgs_of_bits (hne : bits ≠ []) (hbits : ∀ b ∈ bits, b.IsIn c.registers .quantum)
    (hdistinct : Bit.distinct bits) (name : String) : gateArgs c name (bits.map .bit) = .ok bits := by
  have hoperands : ∀ a ∈ bits.map Argument.bit, a.IsOperand c.registers .quantum := by
    intro a ha
    obtain ⟨b, hb, rfl⟩ := mem_map.mp ha
    exact hbits b hb
  have hflat : (bits.map Argument.bit).flatMap Argument.bits = bits := by
    rw [flatMap_map]
    exact flatMap_singleton' bits
  have hgather := gatherQubits_of_isOperand hnames hoperands fun shown => .semantic (.gateOperandKind name shown)
  rw [if_pos (Argument.isListable_bits bits), hflat] at hgather
  have hempty : ¬ bits.isEmpty := fun h => hne (List.isEmpty_iff.mp h)
  have hcheck : (bits.forM fun b => c.checkQubit (.bit b)) = .ok () :=
    forM_eq_ok.mpr fun b hb => Circuit.checkBit_of_isIn hnames (hbits b hb) _
  refine bind_eq_ok.mpr ⟨bits, hgather, ?_⟩
  dsimp only
  rw [if_neg hempty]
  refine bind_eq_ok.mpr ⟨(), hcheck, ?_⟩
  rw [hdistinct]
  rfl

end

end Action

/-! ## From names to operands -/

/-- What an operand is called in a program. -/
def Argument.target? : Argument → Option Target
  | .bit b => some (b.register.name, some (b.index : Int))
  | .register r => some (r.name, none)
  | _ => none

def Target.operand? (regs : List Register) (t : Target) : Option Argument :=
  (regs.find? fun r => r.name == t.1).bind fun r =>
    match t.2 with
    | none => some (.register r)
    | some i => (r.bit (.int i)).toOption.map .bit

namespace Action

theorem operandOf_eq_ok {term : Term} {r : Ref} {a : Argument} (hr : term.reference = .ok r)
    (h : Target.operand? regs r.target = some a) : operandOf regs term = .ok a := by
  obtain ⟨q, hq, ha⟩ := Option.bind_eq_some_iff.mp h
  refine bind_eq_ok.mpr ⟨r, hr, ?_⟩
  have hfind : (regs.find? fun x => x.name == r.name) = some q := hq
  rw [hfind]
  dsimp only
  rw [Ref.target] at ha
  cases hi : r.index with
  | none =>
    rw [hi] at ha
    cases ha
    rfl
  | some i =>
    rw [hi] at ha
    obtain ⟨b, hb, rfl⟩ := Option.map_eq_some_iff.mp ha
    exact bind_eq_ok.mpr ⟨b, toOption_eq_some.mp hb, rfl⟩

theorem mapM_operandOf {terms : List Term} {refs : List Ref}
    (hrefs : terms.mapM Term.reference = .ok refs)
    (h : (refs.map Ref.target).mapM (Target.operand? regs) = some args) :
    terms.mapM (operandOf regs) = .ok args := by
  rw [mapM_eq_ok] at hrefs ⊢
  rw [mapM_eq_some, forall₂_map_left_iff] at h
  induction hrefs generalizing args with
  | nil =>
    cases h
    exact .nil
  | cons hr _ ih =>
    cases h with
    | cons ha hargs => exact .cons (operandOf_eq_ok hr ha) (ih hargs)

end Action

namespace Target

variable {declared : List (String × Int)}

/-- Declared registers of a kind are among some registers. -/
def Declared (regs : List Register) (kind : RegisterKind) (declared : List (String × Int)) : Prop :=
  ∀ name size, declared.lookup name = some size → ∃ r ∈ regs, r.name = name ∧ r.kind = kind ∧ (r.size : Int) = size

theorem IsIn.exists_operand? (hnames : (regs.map Register.name).Nodup)
    (hdeclared : Declared regs kind declared) (h : t.IsIn declared) :
    ∃ a, t.operand? regs = some a ∧ a.IsOperand regs kind ∧ a.target? = some t := by
  obtain ⟨size, hsize, hrange⟩ := h
  obtain ⟨r, hr, hname, hkind, rfl⟩ := hdeclared _ _ hsize
  obtain ⟨name, index⟩ := t
  cases hname
  have hfind := Circuit.find?_register hnames hr
  cases index with
  | none => exact ⟨.register r, by rw [operand?, hfind]; rfl, ⟨hr, hkind⟩, rfl⟩
  | some i =>
    obtain ⟨hpos, hlt⟩ := hrange i rfl
    obtain ⟨n, rfl⟩ := Int.eq_ofNat_of_zero_le hpos
    have hn : n < r.size := Int.ofNat_lt.mp hlt
    refine ⟨.bit ⟨r, n, hn⟩, ?_, ⟨hkind, r, hr, rfl, hkind, hn⟩, rfl⟩
    rw [operand?, hfind]
    show (r.bit (.int n)).toOption.map Argument.bit = _
    rw [bit_of_lt hn]
    rfl

theorem exists_mapM_operand? (hnames : (regs.map Register.name).Nodup)
    (hdeclared : Declared regs kind declared) (h : ∀ t ∈ ts, t.IsIn declared) :
    ∃ args, ts.mapM (operand? regs) = some args ∧ (∀ a ∈ args, a.IsOperand regs kind) ∧
      args.map Argument.target? = ts.map some := by
  obtain ⟨args, hargs⟩ := Outcome.exists_forall₂ fun t ht => (h t ht).exists_operand? hnames hdeclared
  refine ⟨args, mapM_eq_some.mpr (hargs.imp fun _ _ h => h.1), fun a ha => ?_, ?_⟩
  · obtain ⟨t, -, h⟩ := exists_of_forall₂ hargs a ha
    exact h.2.1
  · rw [maps_eq_iff]
    exact hargs.flip.imp fun _ _ h => h.2.2

end Target

/-! ## Distinct bits -/

/-- Two operands have no bit in common. -/
def Argument.Apart (a b : Argument) : Prop := ∀ p ∈ a.bits, ∀ q ∈ b.bits, p.key ≠ q.key

theorem Register.mem_bits : b ∈ r.bits ↔ b.register = r := by
  rw [bits, mem_pmap]
  constructor
  · rintro ⟨i, hi, rfl⟩
    rfl
  · rintro rfl
    exact ⟨b.index, mem_range.mpr b.index_lt, rfl⟩

theorem Register.nodup_bits (r : Register) : (r.bits.map Bit.key).Nodup := by
  have hkeys : r.bits.map Bit.key = (List.range r.size).map fun i => (r.name, i) := by
    rw [bits, map_pmap]
    exact @pmap_eq_map _ _ (fun i => i < r.size) (fun i => (r.name, i)) _ _
  rw [hkeys]
  exact nodup_range.map fun i j h => (Prod.mk.inj h).2

namespace Argument

variable {a : Argument}

theorem mem_bits_of_bitAt? (h : a.bitAt? index = some b) : b ∈ a.bits := by
  cases a with
  | bit b' =>
    cases h
    exact mem_singleton_self _
  | register r => exact mem_bits.mpr (bit_eq_ok.mp (toOption_eq_some.mp h)).1
  | _ => cases h

theorem isIn_of_mem_bits (ha : a.IsOperand regs kind)
    (hb : b ∈ a.bits) : b.IsIn regs kind := by
  cases a with
  | bit b' =>
    rw [mem_singleton.mp hb]
    exact ha
  | register r =>
    have hr := mem_bits.mp hb
    subst hr
    exact ⟨ha.2, b.register, ha.1, rfl, ha.2, b.index_lt⟩
  | _ => exact ha.elim

/-- A bit of an operand is named by it, alone or with its whole register. -/
theorem target?_of_mem_bits (ha : a.target? = some t) (hb : b ∈ a.bits) :
    t.1 = b.register.name ∧ (t.2 = none ∨ t.2 = some (b.index : Int)) := by
  cases a with
  | bit b' =>
    rw [mem_singleton.mp hb]
    cases ha
    exact ⟨rfl, .inr rfl⟩
  | register r =>
    cases ha
    rw [← mem_bits.mp hb]
    exact ⟨rfl, .inl rfl⟩
  | _ => cases ha

/-- Operands that are named without repetition have no bits in common. -/
theorem pairwise_apart (hts : Target.Distinct ts) (h : args.map target? = ts.map some) :
    args.Pairwise Apart := by
  have hapart : ∀ {t t' : Target}, t ∈ ts → t' ∈ ts → t ≠ t' → ∀ {a a' : Argument}, a.target? = some t →
      a'.target? = some t' → a.Apart a' := by
    intro t t' ht ht' hne a a' ha ha' p hp q hq hkey
    obtain ⟨hname, hindex⟩ := target?_of_mem_bits ha hp
    obtain ⟨hname', hindex'⟩ := target?_of_mem_bits ha' hq
    obtain ⟨hreg, hi⟩ := Prod.mk.inj hkey
    have hsame : t.1 = t'.1 := hname.trans (hreg.trans hname'.symm)
    have hi' : some (p.index : Int) = some (q.index : Int) := congrArg (fun n : Nat => some (n : Int)) hi
    rcases hindex with hindex | hindex <;> rcases hindex' with hindex' | hindex'
    · exact hne (Prod.ext hsame (hindex.trans hindex'.symm))
    · exact hts.2 t ht t' ht' hindex (by rw [hindex']; rfl) hsame.symm
    · exact hts.2 t' ht' t ht hindex' (by rw [hindex]; rfl) hsame
    · exact hne (Prod.ext hsame (hindex.trans (hi'.trans hindex'.symm)))
  have hpairs : (ts.map some).Pairwise fun o o' => ∀ a a' : Argument, a.target? = o → a'.target? = o' → a.Apart a' := by
    rw [pairwise_map]
    exact hts.1.imp_of_mem fun ht ht' hne _ _ ha ha' => hapart ht ht' hne ha ha'
  rw [← h, pairwise_map] at hpairs
  exact hpairs.imp fun h => h _ _ rfl rfl

theorem distinct_of_mapM_bitAt? (h : args.Pairwise Apart) {bits : List Bit}
    (hbits : args.mapM (bitAt? index) = some bits) : Bit.distinct bits := by
  rw [Bit.distinct_iff]
  rw [mapM_eq_some] at hbits
  induction hbits with
  | nil => exact nodup_nil
  | @cons a b args bits hab hrest ih =>
    rw [pairwise_cons] at h
    rw [map_cons, nodup_cons]
    refine ⟨fun hmem => ?_, ih h.2⟩
    obtain ⟨q, hq, hkey⟩ := mem_map.mp hmem
    obtain ⟨a', ha', haq⟩ := exists_of_forall₂ hrest q hq
    exact h.1 a' ha' b (mem_bits_of_bitAt? hab) q (mem_bits_of_bitAt? haq) hkey.symm

theorem distinct_flatMap_bits (h : args.Pairwise Apart) : Bit.distinct (args.flatMap bits) := by
  rw [Bit.distinct_iff]
  induction args with
  | nil => exact nodup_nil
  | cons a rest ih =>
    rw [pairwise_cons] at h
    rw [flatMap_cons, map_append, nodup_append]
    refine ⟨?_, ih h.2, ?_⟩
    · cases a with
      | bit b => exact nodup_singleton _
      | register r => exact r.nodup_bits
      | _ => exact nodup_nil
    · intro k hk k' hk'
      obtain ⟨p, hp, rfl⟩ := mem_map.mp hk
      obtain ⟨q, hq, rfl⟩ := mem_map.mp hk'
      obtain ⟨a', ha', hqa⟩ := mem_flatMap.mp hq
      exact h.1 a' ha' p hp q hqa

end Argument

end QasmCircuit
