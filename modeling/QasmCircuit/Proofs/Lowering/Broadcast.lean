import QasmCircuit.Proofs.Lowering.Replace

/-!
# Statements on whole registers

A statement on whole registers of one size stands for one statement on bits at each position (`Node.indexed`). The
checks see the operands as they are written, and the circuit sees the bits of each row; the two ways agree
(`Effect.isValid_iff_indexed`, `Effect.outside?_indexed`).

> `Program.isMatchedBy_indexed`: the statements on bits give the circuit of the statement on registers.
-/

namespace QasmCircuit

open Outcome List

variable {ts : List Target} {size i : Nat} {lib : Library} {p : Program} {e : Effect} {args : List Argument}
  {n : Node} {bits : List Bit}

/-! ## One statement for each position -/

/-- A whole register gives up its place to one of its bits. -/
def Target.indexed (i : Nat) (t : Target) : Target := (t.1, some (t.2.getD i))

/-- A reference to a whole register becomes one to a bit. -/
def Ref.indexed (i : Nat) (r : Ref) : Ref := { r with index := some (r.index.getD i) }

/-- An operand at a position. Parameters are no references and stay as they are. -/
def Term.indexed (i : Nat) : Term → Term
  | .ref r => .ref (r.indexed i)
  | t => t

/-- A gate or a measurement at one position of its registers. -/
def Node.indexed (i : Nat) : Node → Node
  | .call name p params operands guard => .call name p params (operands.map (Term.indexed i)) guard
  | .primitive op first second guard p =>
    .primitive op (first.map (Term.indexed i)) (second.map (Term.indexed i)) guard p
  | .measure qubit clbit p guard => .measure (qubit.indexed i) (clbit.indexed i) p guard
  | n => n

/-- The statements at all positions of registers of a size, in order. -/
def Node.spread (size : Nat) (n : Node) : List Node := (List.range size).map fun i => n.indexed i

theorem Node.forall_mem_spread {P : Node → Prop} :
    (∀ m ∈ n.spread size, P m) ↔ ∀ i < size, P (n.indexed i) := by
  rw [spread, forall_mem_map]
  exact forall_congr' fun i => by rw [mem_range]

/-- What a gate or a measurement does at one position. -/
def Effect.indexed (i : Nat) : Effect → Effect
  | .apply name params targets => .apply name params (targets.map (Target.indexed i))
  | .measure qubit clbit => .measure (qubit.indexed i) (clbit.indexed i)
  | e => e

theorem Term.target?_indexed (i : Nat) (t : Term) : (t.indexed i).target? = t.target?.map (Target.indexed i) := by
  cases t with
  | ref r =>
    have hkind : (r.indexed i).kind = r.kind := rfl
    rw [indexed, target?, target?, reference, reference, hkind]
    split <;> rfl
  | _ => rfl

theorem Term.primitiveTarget?_indexed (i : Nat) (t : Term) :
    (t.indexed i).primitiveTarget? = t.primitiveTarget?.map (Target.indexed i) := by
  cases t with
  | ref r =>
    have hkind : (r.indexed i).kind = r.kind := rfl
    rw [indexed, primitiveTarget?, primitiveTarget?, toQuantum, toQuantum, hkind]
    split <;> rfl
  | _ => rfl

theorem Term.IsParam.indexed {params : List String} {t : Term} (h : t.IsParam params) (i : Nat) : t.indexed i = t := by
  cases h <;> rfl

/-- A statement at a position has the effect at that position. -/
theorem Node.effect?_indexed (he : n.effect? = some e)
    (hin : e.IsInProgram lib p) (i : Nat) : (n.indexed i).effect? = some (e.indexed i) := by
  cases Program.hasEffect_of_effect? he with
  | call hrefs =>
    rw [indexed, effect?, mapM_map, mapM_eq_map_of_forall fun t _ => t.target?_indexed i,
      Program.mapM_target?_eq_some.mpr ⟨_, hrefs, rfl⟩]
    rfl
  | @primitive op first second guard position name refs hname hrefs =>
    have hparams : (primitiveParams op first).map (Term.indexed i) = primitiveParams op first :=
      (map_congr_left fun t ht => (hin.2.1 t ht).indexed i).trans (map_id' _)
    rw [indexed, effect?, hname, primitiveOperands_map, primitiveParams_map, hparams, mapM_map,
      mapM_eq_map_of_forall fun t _ => t.primitiveTarget?_indexed i,
      Program.mapM_primitiveTarget?_eq_some.mpr ⟨_, hrefs, rfl⟩]
    rfl
  | measure hq hc =>
    rw [indexed, effect?, Term.target?_indexed, Term.target?_indexed, Term.target?, Term.target?, hq, hc]
    rfl
  | barrier => exact he

theorem Node.guardOf?_indexed (i : Nat) (n : Node) : Program.guardOf? (n.indexed i) = Program.guardOf? n := by
  cases n <;> rfl

theorem Node.placeOf_indexed (i : Nat) (n : Node) : Program.placeOf (n.indexed i) = Program.placeOf n := by
  cases n <;> rfl

/-! ## Checks of the operands -/

/-- The whole registers among the operands of a statement are declared with one size. -/
def Effect.Spans (p : Program) (size : Nat) (e : Effect) : Prop :=
  ∀ t ∈ e.targets, t.2 = none → (p.qregs ++ p.cregs).lookup t.1 = some (size : Int)

namespace Target

variable {regs : List (String × Int)}

theorem IsIn.indexed {t : Target} (h : t.IsIn regs) (hsize : t.2 = none → regs.lookup t.1 = some (size : Int))
    (hi : i < size) : (t.indexed i).IsIn regs := by
  obtain ⟨n, hn, hrange⟩ := h
  refine ⟨n, hn, fun j hj => ?_⟩
  cases hj
  cases hindex : t.2 with
  | none =>
    cases hn.symm.trans (hsize hindex)
    exact ⟨Int.natCast_nonneg i, Int.ofNat_lt.mpr hi⟩
  | some j => exact hrange j hindex

/-- Operands that go together stay apart at a position. -/
theorem eq_of_indexed {a b : Target} (h : a.indexed i = b.indexed i)
    (ha : a.2 = none → b.2.isSome → b.1 ≠ a.1) (hb : b.2 = none → a.2.isSome → a.1 ≠ b.1) : a = b := by
  obtain ⟨hname, hindex⟩ := Prod.mk.inj h
  cases hai : a.2 with
  | none =>
    cases hbi : b.2 with
    | none => exact Prod.ext hname (hai.trans hbi.symm)
    | some j => exact absurd hname.symm (ha hai (by rw [hbi]; rfl))
  | some j =>
    cases hbi : b.2 with
    | none => exact absurd hname (hb hbi (by rw [hai]; rfl))
    | some k =>
      rw [hai, hbi] at hindex
      exact Prod.ext hname ((hai.trans hindex).trans hbi.symm)

/-- The bits of a row are distinct at every position just if the operands are. A bit beside its whole register meets it
at its own position. -/
theorem distinct_iff_indexed (hin : ∀ t ∈ ts, t.IsIn regs)
    (hsize : ∀ t ∈ ts, t.2 = none → regs.lookup t.1 = some (size : Int)) (hpos : 0 < size) :
    Distinct ts ↔ ∀ i < size, Distinct (ts.map (Target.indexed i)) := by
  constructor
  · rintro ⟨hnodup, hapart⟩ i -
    refine ⟨hnodup.map_on fun a ha b hb heq => ?_, fun a ha _ _ hnone => ?_⟩
    · exact eq_of_indexed heq (hapart a ha b hb) (hapart b hb a ha)
    · obtain ⟨t, -, rfl⟩ := mem_map.mp ha
      cases hnone
  · intro h
    refine ⟨(h 0 hpos).1.of_map, fun a ha b hb hnone hsome hname => ?_⟩
    -- The bit and its register are the same bit at the index of the bit.
    obtain ⟨j, hj⟩ := Option.isSome_iff_exists.mp hsome
    obtain ⟨n, hn, hrange⟩ := hin b hb
    obtain ⟨hnonneg, hlt⟩ := hrange j hj
    rw [hname, hsize a ha hnone] at hn
    cases hn
    obtain ⟨k, rfl⟩ := Int.eq_ofNat_of_zero_le hnonneg
    have hsame : a.indexed k = b.indexed k := by
      rw [indexed, indexed, hnone, hj, hname]
      rfl
    have heq := inj_on_of_nodup_map (h k (Int.ofNat_lt.mp hlt)).1 ha hb hsame
    rw [heq, hj] at hnone
    cases hnone

theorem oneSize_indexed (i : Nat) : OneSize regs (ts.map (Target.indexed i)) := by
  intro a ha b _ hnone
  obtain ⟨t, -, rfl⟩ := mem_map.mp ha
  cases hnone

end Target

namespace Effect

/-- Where a register is declared, the table of all registers gives its size. -/
theorem lookup_of_spans (hnames : ((p.qregs ++ p.cregs).map Prod.fst).Nodup) {regs : List (String × Int)}
    (hsub : regs ⊆ p.qregs ++ p.cregs) {t : Target} (hin : t.IsIn regs)
    (hsize : (p.qregs ++ p.cregs).lookup t.1 = some (size : Int)) : regs.lookup t.1 = some (size : Int) := by
  obtain ⟨n, hn, -⟩ := hin
  rw [hn, ← lookup_of_mem hnames (hsub (mem_of_lookup hn)), hsize]

section

variable (hres : p.Resolved lib) (hin : e.IsInProgram lib p) (hspans : e.Spans p size)
include hres hin hspans

theorem IsInProgram.indexed (hi : i < size) : (e.indexed i).IsInProgram lib p := by
  have hquantum : ∀ t ∈ e.targets, t.IsIn p.qregs → (t.indexed i).IsIn p.qregs := fun t ht htin =>
    htin.indexed (fun hnone => lookup_of_spans hres.names (subset_append_left _ _) htin (hspans t ht hnone)) hi
  have hclassical : ∀ t ∈ e.targets, t.IsIn p.cregs → (t.indexed i).IsIn p.cregs := fun t ht htin =>
    htin.indexed (fun hnone => lookup_of_spans hres.names (subset_append_right _ _) htin (hspans t ht hnone)) hi
  cases e with
  | apply name params targets =>
    refine ⟨hin.1, hin.2.1, fun h => hin.2.2.1 (map_eq_nil_iff.mp h), fun t' ht' => ?_⟩
    obtain ⟨t, ht, rfl⟩ := mem_map.mp ht'
    exact hquantum t ht (hin.2.2.2 t ht)
  | barrier targets => exact hin
  | measure qubit clbit =>
    exact ⟨hquantum qubit mem_cons_self hin.1, hclassical clbit (mem_cons_of_mem _ mem_cons_self) hin.2⟩

/-- The checks accept a statement on registers just if they accept it at every position. -/
theorem isValid_iff_indexed (hwhole : ∃ t ∈ e.targets, t.2 = none) (hpos : 0 < size) :
    e.IsValid lib p ↔ ∀ i < size, (e.indexed i).IsValid lib p := by
  cases e with
  | apply name params targets =>
    have hsize : ∀ t ∈ targets, t.2 = none → p.qregs.lookup t.1 = some (size : Int) := fun t ht hnone =>
      lookup_of_spans hres.names (subset_append_left _ _) (hin.2.2.2 t ht) (hspans t ht hnone)
    have hone : Target.OneSize p.qregs targets := by
      intro a ha b hb hnone hnone' m n hm hn
      have honce := (nodup_append.mp (map_append ▸ hres.names)).1
      rw [Program.sizeOf?, lookup_reverse honce] at hm hn
      rw [hsize a ha hnone] at hm
      rw [hsize b hb hnone'] at hn
      exact Option.some.inj (hm.symm.trans hn)
    have hdistinct := Target.distinct_iff_indexed hin.2.2.2 hsize hpos
    constructor
    · rintro ⟨htakes, hapart, -⟩ i hi
      refine ⟨?_, hdistinct.mp hapart i hi, Target.oneSize_indexed i⟩
      rwa [length_map]
    · intro h
      refine ⟨?_, hdistinct.mpr fun i hi => (h i hi).2.1, hone⟩
      have htakes := (h 0 hpos).1
      rwa [length_map] at htakes
  | barrier targets => exact absurd hwhole (by rintro ⟨t, ht, -⟩; exact absurd ht not_mem_nil)
  | measure qubit clbit =>
    refine iff_of_true (fun hq hc m n hm hn => ?_) fun i _ hq => by cases hq
    have honce := nodup_append.mp (map_append ▸ hres.names)
    rw [Program.sizeOf?, lookup_reverse honce.1, lookup_of_spans hres.names (subset_append_left _ _) hin.1
      (hspans qubit mem_cons_self hq)] at hm
    rw [Program.sizeOf?, lookup_reverse honce.2.1, lookup_of_spans hres.names (subset_append_right _ _) hin.2
      (hspans clbit (mem_cons_of_mem _ mem_cons_self) hc)] at hn
    exact Option.some.inj (hm.symm.trans hn)

end

end Effect

/-! ## Rows -/

/-- A target stands for an operand, which is a register of some size if the target is a whole register. -/
structure Target.Names (regs : List Register) (size : Nat) (t : Target) (a : Argument) : Prop where
  operand : t.operand? regs = some a
  size_eq : ∀ r, a = .register r → r.size = size
  whole : t.2 = none → ∃ r, a = .register r
  isOperand : ∃ kind, a.IsOperand regs kind

namespace Target

variable {regs : List Register}

theorem IsIn.exists_names {kind : RegisterKind} {declared : List (String × Int)}
    (hnames : (regs.map Register.name).Nodup) (hdeclared : Declared regs kind declared) {t : Target}
    (h : t.IsIn declared) (hsize : t.2 = none → declared.lookup t.1 = some (size : Int)) :
    ∃ a, t.Names regs size a := by
  obtain ⟨a, ha, hoperand, htarget⟩ := h.exists_operand? hnames hdeclared
  refine ⟨a, ha, fun r hr => ?_, fun hnone => ?_, kind, hoperand⟩
  · subst hr
    cases htarget
    obtain ⟨q, hq, hname, -, hqsize⟩ := hdeclared _ _ (hsize rfl)
    obtain rfl : q = r := inj_on_of_nodup_map hnames hq hoperand.1 hname
    exact Int.ofNat.inj hqsize
  · cases a with
    | register r => exact ⟨r, rfl⟩
    | bit b =>
      cases htarget
      cases hnone
    | _ => cases htarget

/-- At a position, an operand stands for its bit there. -/
theorem operand?_indexed {t : Target} {a : Argument} (h : t.operand? regs = some a) (i : Nat) :
    (t.indexed i).operand? regs = (a.bitAt? i).map .bit := by
  obtain ⟨r, hr, ha⟩ := Option.bind_eq_some_iff.mp h
  have hname : (t.indexed i).1 = t.1 := rfl
  rw [operand?, hname, hr]
  cases hindex : t.2 with
  | none =>
    rw [hindex] at ha
    cases ha
    rw [indexed, hindex]
    rfl
  | some j =>
    rw [hindex] at ha
    obtain ⟨b, hb, rfl⟩ := Option.map_eq_some_iff.mp ha
    rw [indexed, hindex]
    exact congrArg (Option.map Argument.bit) hb

variable (h : Forall₂ (Target.Names regs size) ts args)
include h

theorem mapM_operand?_of_names : ts.mapM (operand? regs) = some args :=
  mapM_eq_some.mpr (h.imp fun _ _ h => h.operand)

theorem mapM_operand?_indexed (hbits : args.mapM (Argument.bitAt? i) = some bits) :
    (ts.map (Target.indexed i)).mapM (operand? regs) = some (bits.map Argument.bit) := by
  rw [mapM_eq_some] at hbits ⊢
  rw [forall₂_map_left_iff, forall₂_map_right_iff]
  induction h generalizing bits with
  | nil =>
    cases hbits
    exact .nil
  | cons hta _ ih =>
    cases hbits with
    | cons hb hbits => exact .cons ((operand?_indexed hta.operand i).trans (congrArg _ hb)) (ih hbits)

theorem size_eq_of_names {r : Register} (hr : .register r ∈ args) : r.size = size := by
  obtain ⟨t, -, hnames⟩ := exists_of_forall₂ h _ hr
  exact hnames.size_eq r rfl

/-- With a whole register, there is a row for each position. -/
theorem rows?_of_whole (hwhole : ∃ t ∈ ts, t.2 = none) :
    rows? args = (List.range size).mapM fun i => args.mapM (Argument.bitAt? i) := by
  obtain ⟨t, ht, hnone⟩ := hwhole
  obtain ⟨a, ha, hnames⟩ := exists_of_forall₂ h.flip t ht
  obtain ⟨r, rfl⟩ := hnames.whole hnone
  rw [rows?, Action.registerSizes_of_forall ha fun q hq => size_eq_of_names h hq]

end Target

namespace Effect

variable {home : CircuitId} {regs : List Register} {gates : List GateDef} {guard : Option Condition}

theorem row?_indexed (i : Nat) (bits : List Bit) :
    (e.indexed i).row? lib home gates guard bits = e.row? lib home gates guard bits := by
  cases e <;> rfl

theorem targets_indexed (i : Nat) : (e.indexed i).targets = e.targets.map (Target.indexed i) := by
  cases e <;> rfl

/-- At a position, a statement comes to what the row there comes to. -/
theorem outside?_indexed (h : Forall₂ (Target.Names regs size) e.targets args)
    (he : e.targets ≠ []) (hbits : args.mapM (Argument.bitAt? i) = some bits) :
    (e.indexed i).outside? lib home regs gates guard = e.row? lib home gates guard bits := by
  have htargets : (e.indexed i).targets.mapM (Target.operand? regs) = some (bits.map .bit) := by
    rw [targets_indexed]
    exact Target.mapM_operand?_indexed h hbits
  have hne : (e.indexed i).targets ≠ [] := by
    rw [targets_indexed]
    exact fun hnil => he (map_eq_nil_iff.mp hnil)
  rw [outside?_of_bits hne htargets, row?_indexed]

/-- A statement on registers comes to what it comes to at each position, one after the other. -/
theorem outside?_eq_indexed (h : Forall₂ (Target.Names regs size) e.targets args)
    (hwhole : ∃ t ∈ e.targets, t.2 = none) (hpos : 0 < size) {rows : List (List Bit)} (hrows : rows? args = some rows) :
    e.outside? lib home regs gates guard =
      ((List.range size).mapM fun i => (e.indexed i).outside? lib home regs gates guard).map List.flatten := by
  have he : e.targets ≠ [] := fun hnil => by
    obtain ⟨t, ht, -⟩ := hwhole
    rw [hnil] at ht
    exact absurd ht not_mem_nil
  have hall := mapM_eq_some.mp ((Target.rows?_of_whole h hwhole).symm.trans hrows)
  have hne : rows ≠ [] := by
    rintro rfl
    exact hpos.ne' (range_eq_nil.mp (forall₂_nil_right_iff.mp hall))
  rw [outside?_of_rows? he (Target.mapM_operand?_of_names h) hrows hne]
  -- Each position gives the row that stands there.
  rw [mapM_eq_of_forall₂ (hall.imp fun i bits hbits => outside?_indexed h he hbits)]

end Effect

/-! ## Programs -/

namespace Node

variable {regs : List Register}

theorem Resolved.indexed (h : n.Resolved lib p) (hres : p.Resolved lib) (he : n.effect? = some e)
    (hspans : e.Spans p size) (hi : i < size) : (n.indexed i).Resolved lib p := by
  obtain ⟨e', he', hin⟩ := h.effect
  cases he.symm.trans he'
  refine ⟨⟨_, effect?_indexed he hin i, hin.indexed hres hspans hi⟩, ?_, ?_⟩
  · rw [guardOf?_indexed]
    exact h.guarded
  · rw [IsPlaced, placeOf_indexed]
    exact h.placed

/-- The operands of a statement on registers of one size. -/
theorem exists_names (hp : p.Provides regs) (hres : p.Resolved lib) (hin : e.IsInProgram lib p)
    (hspans : e.Spans p size) : ∃ args, Forall₂ (Target.Names regs size) e.targets args := by
  refine Outcome.exists_forall₂ fun t ht => ?_
  have hquantum : t.IsIn p.qregs → ∃ a, t.Names regs size a := fun htin =>
    htin.exists_names hp.names hp.quantum fun hnone =>
      Effect.lookup_of_spans hres.names (subset_append_left _ _) htin (hspans t ht hnone)
  cases e with
  | apply name params targets => exact hquantum (hin.2.2.2 t ht)
  | barrier targets => exact absurd ht not_mem_nil
  | measure qubit clbit =>
    rcases mem_cons.mp ht with rfl | ht'
    · exact hquantum hin.1
    · rw [mem_singleton.mp ht'] at ht ⊢
      exact hin.2.exists_names hp.names hp.classical fun hnone =>
        Effect.lookup_of_spans hres.names (subset_append_right _ _) hin.2 (hspans _ ht hnone)

/-- The statements at the positions of the registers come to what the statement on the registers comes to. -/
theorem expansions?_indexed (hp : p.Provides regs) (hres : p.Resolved lib) (he : n.effect? = some e)
    (hin : e.IsInProgram lib p) (hspans : e.Spans p size) (hwhole : ∃ t ∈ e.targets, t.2 = none) (hpos : 0 < size)
    (home : CircuitId) : expansions? lib home regs p.gates (n.spread size) = n.expansion? lib home regs p.gates := by
  obtain ⟨args, hnames⟩ := exists_names hp hres hin hspans
  obtain ⟨rows, hrows⟩ : ∃ rows, rows? args = some rows :=
    Action.exists_rows? (fun a ha => (exists_of_forall₂ hnames a ha).elim fun _ h => h.2.isOperand)
      fun q r hq hr => (Target.size_eq_of_names hnames hq).trans (Target.size_eq_of_names hnames hr).symm
  have hstep : ∀ i, (n.indexed i).expansion? lib home regs p.gates =
      ((Program.guardOf? n).mapM (Guard.condition? regs)).bind fun guard =>
        (e.indexed i).outside? lib home regs p.gates guard := by
    intro i
    rw [expansion?, effect?_indexed he hin i, guardOf?_indexed]
    rfl
  rw [expansions?, spread, mapM_map]
  unfold Function.comp
  rw [mapM_congr fun i _ => hstep i, expansion?, he]
  dsimp only [bind, Option.bind_some]
  cases (Program.guardOf? n).mapM (Guard.condition? regs) with
  | none =>
    exact congrArg (Option.map List.flatten)
      (mapM_eq_none_of_forall (fun hnil => hpos.ne' (range_eq_nil.mp hnil)) fun _ _ => rfl)
  | some guard => exact (Effect.outside?_eq_indexed hnames hwhole hpos hrows).symm

end Node

namespace Program

theorem admits_iff_indexed (hres : p.Resolved lib) (hn : n.Resolved lib p) (he : n.effect? = some e)
    (hspans : e.Spans p size) (hwhole : ∃ t ∈ e.targets, t.2 = none) (hpos : 0 < size) :
    p.Admits lib n ↔ ∀ m ∈ n.spread size, p.Admits lib m := by
  rw [Node.forall_mem_spread]
  obtain ⟨e', he', hin⟩ := hn.effect
  cases he.symm.trans he'
  have hvalid := Effect.isValid_iff_indexed hres hin hspans hwhole hpos
  constructor
  · intro h i hi
    refine ⟨hn.indexed hres he hspans hi, fun e' he' => ?_⟩
    cases (Node.effect?_indexed he hin i).symm.trans he'
    exact hvalid.mp (h.valid e he) i hi
  · intro h
    refine ⟨hn, fun e' he' => ?_⟩
    cases he.symm.trans he'
    exact hvalid.mpr fun i hi => (h i hi).valid _ (Node.effect?_indexed he hin i)

/-- In a program that was read, a gate or a measurement on whole registers of one size can be replaced by the statements
at their positions, in order: either program becomes a circuit just if the other one does, and the circuits have the
same text. -/
theorem isMatchedBy_indexed {text : String} (hparse : parse .packaged text = .ok p) {before after : List Node}
    (hbody : p.body = before ++ n :: after) (he : n.effect? = some e) (hwhole : ∃ t ∈ e.targets, t.2 = none)
    (hsize : ∀ t ∈ e.targets, t.2 = none → (p.qregs ++ p.cregs).lookup t.1 = some (size : Int)) :
    p.IsMatchedBy (p.withBody (before ++ n.spread size ++ after)) ∧
      (p.withBody (before ++ n.spread size ++ after)).IsMatchedBy p := by
  have hres := resolved_of_parse Library.packaged_hasPrimitives hparse
  have hshort := isShort_of_parse hparse
  have hn : n.Resolved .packaged p := hres.body n (hbody ▸ List.mem_append_right _ List.mem_cons_self)
  have hpos : 0 < size := by
    obtain ⟨t, ht, hnone⟩ := hwhole
    exact Int.natCast_pos.mp (hres.registers _ (mem_of_lookup (hsize t ht hnone))).2
  have hadmits := admits_iff_indexed hres hn he hsize hwhole hpos
  obtain ⟨e', he', hin⟩ := hn.effect
  cases he.symm.trans he'
  have hbody' : p.body = before ++ [n] ++ after := by
    rw [hbody, List.append_assoc]
    rfl
  have hsame : ∀ {registers}, p.Declares registers → ∀ home,
      Node.expansions? .packaged home registers p.gates (n.spread size) =
        Node.expansions? .packaged home registers p.gates [n] := by
    intro registers hdeclares home
    rw [Node.expansions?_indexed (hdeclares.provides hres.names) hres he hin hsize hwhole hpos,
      Node.expansions?_singleton]
  constructor
  · refine isMatchedBy_of_isAccepted hres hshort fun registers xs hp => ?_
    have hspread := hadmits.mp (hp.admits n (hbody ▸ List.mem_append_right _ List.mem_cons_self))
    exact hp.replace hbody' hspread fun home ys hys => (hsame hp.declares home).trans hys
  · -- The other program was not read from a text: its statements have what they need from those of the first one.
    have hres' : (p.withBody (before ++ n.spread size ++ after)).Resolved .packaged := by
      refine hres.withBody fun m hm => ?_
      rw [List.append_assoc, List.mem_append, List.mem_append] at hm
      rcases hm with hm | hm | hm
      · exact hres.body m (hbody ▸ List.mem_append_left _ hm)
      · exact (Node.forall_mem_spread (P := Node.Resolved .packaged p)).mpr
          (fun i hi => hn.indexed hres he hsize hi) m hm
      · exact hres.body m (hbody ▸ List.mem_append_right _ (List.mem_cons_of_mem _ hm))
    have hshort' : (p.withBody (before ++ n.spread size ++ after)).IsShort := by
      refine ⟨hshort.1, fun m hm => ?_⟩
      rw [withBody, List.append_assoc, List.mem_append, List.mem_append] at hm
      rcases hm with hm | hm | hm
      · exact hshort.2 m (hbody ▸ List.mem_append_left _ hm)
      · refine (Node.forall_mem_spread (P := fun m => ∀ g ∈ guardOf? m, Text.isShort g.value)).mpr (fun i _ => ?_) m hm
        rw [Node.guardOf?_indexed]
        exact hshort.2 n (hbody ▸ List.mem_append_right _ List.mem_cons_self)
      · exact hshort.2 m (hbody ▸ List.mem_append_right _ (List.mem_cons_of_mem _ hm))
    refine isMatchedBy_of_isAccepted hres' hshort' fun registers xs hq => ?_
    have hspread : ∀ m ∈ n.spread size, p.Admits .packaged m := fun m hm =>
      (hq.admits m (List.mem_append_left _ (List.mem_append_right _ hm))).withBody p.body
    have hback : ((p.withBody (before ++ n.spread size ++ after)).withBody (before ++ [n] ++ after)).IsAccepted
        .packaged registers xs :=
      hq.replace rfl (List.forall_mem_singleton.mpr ((hadmits.mpr hspread).withBody _))
        fun home ys hys => (hsame hq.declares home).symm.trans hys
    have hp : p = (p.withBody (before ++ n.spread size ++ after)).withBody (before ++ [n] ++ after) := by
      rw [← hbody']
      rfl
    rwa [← hp] at hback

/-- A declared gate under a guard, on a whole register and a bit of another one. -/
def guardedCall : String :=
  "OPENQASM 2.0; include \"qelib1.inc\"; gate f(t) a,b\x7brx(t/2) b; cx a,b;\x7d " ++
    "qreg q[2]; qreg r[2]; creg c[2]; if(c==2) f(3) q,r[1]; measure q->c;"

theorem isMatchedBy_indexed_guardedCall : ∃ p n after, parse .packaged guardedCall = .ok p ∧ p.body = n :: after ∧
    n.effect?.map Effect.targets = some [("q", none), ("r", some 1)] ∧
    (∃ c t, (Action.lower .packaged none p).Returns {} c t) ∧
    p.IsMatchedBy (p.withBody ([] ++ n.spread 2 ++ after)) ∧
    (p.withBody ([] ++ n.spread 2 ++ after)).IsMatchedBy p := by
  have hchecked : ((parse .packaged guardedCall).toOption.map fun p =>
      ((p.body.head?.bind Node.effect?).map Effect.targets, p.qregs ++ p.cregs,
        ((Action.lower .packaged none p).outcome {}).1.toOption.isSome)) =
      some (some [("q", none), ("r", some 1)], [("q", 2), ("r", 2), ("c", 2)], true) := by
    decide +kernel
  obtain ⟨p, hp, hfacts⟩ := Option.map_eq_some_iff.mp hchecked
  obtain ⟨htargets, hfacts⟩ := Prod.mk.inj hfacts
  obtain ⟨hregisters, hlower⟩ := Prod.mk.inj hfacts
  obtain ⟨e, he, htargets⟩ := Option.map_eq_some_iff.mp htargets
  obtain ⟨n, hn, he⟩ := Option.bind_eq_some_iff.mp he
  obtain ⟨after, hbody⟩ := List.head?_eq_some_iff.mp hn
  have hwhole : ∃ t ∈ e.targets, t.2 = none := ⟨("q", none), htargets ▸ List.mem_cons_self, rfl⟩
  have hsize : ∀ t ∈ e.targets, t.2 = none → (p.qregs ++ p.cregs).lookup t.1 = some ((2 : Nat) : Int) := by
    rw [htargets, hregisters]
    decide
  refine ⟨p, n, after, toOption_eq_some.mp hp, hbody, ?_, ?_,
    isMatchedBy_indexed (toOption_eq_some.mp hp) (hbody : p.body = [] ++ n :: after) he hwhole hsize⟩
  · rw [he, Option.map_some, htargets]
  · obtain ⟨c, hc⟩ := Option.isSome_iff_exists.mp hlower
    exact ⟨c, _, Prod.ext (toOption_eq_some.mp hc) rfl⟩

end Program

end QasmCircuit
