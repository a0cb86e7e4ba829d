import QasmCircuit.Proofs.Lowering.Lower

/-!
# What the checks of a program come to

The checks compare operands as they are written. Said of the qubits that the operands name, they come to this: no gate
and no barrier of the program names a qubit twice, whether by its index or with its whole register
(`Target.distinct_iff_nodup_qubits`). In the declaration of a gate the operands are arguments, and none is given to a
gate twice. The barriers of declarations are not looked at.

> `Program.validate_iff_isConsistent`: the checks pass just for the programs that are consistent in this sense.
-/

namespace QasmCircuit

open List

namespace Target

variable {regs : List (String × Int)} {ts : List Target}

/-- The qubits that an operand names: the one with its index, or all of its register. -/
def qubits (regs : List (String × Int)) (t : Target) : List (String × Int) :=
  match t.2 with
  | some i => [(t.1, i)]
  | none => (List.range ((regs.lookup t.1).getD 0).toNat).map fun (i : Nat) => (t.1, (i : Int))

/-- Two operands without a common qubit, as far as their names and indices tell. -/
def Apart (a b : Target) : Prop := a.1 = b.1 → a.2 ≠ b.2 ∧ a.2 ≠ none ∧ b.2 ≠ none

instance : Std.Symm Apart where
  symm _ _ h hname := ⟨(h hname.symm).1.symm, (h hname.symm).2.2, (h hname.symm).2.1⟩

theorem distinct_iff_pairwise : Distinct ts ↔ ts.Pairwise Apart := by
  constructor
  · rintro ⟨hnodup, hwhole⟩
    have hne : ∀ a ∈ ts, ∀ b ∈ ts, a ≠ b → a.1 = b.1 → a.2 ≠ none := by
      intro a ha b hb hab hname hnone
      cases hindex : b.2 with
      | none => exact hab (Prod.ext hname (hnone.trans hindex.symm))
      | some i => exact hwhole a ha b hb hnone (Option.isSome_of_eq_some hindex) hname.symm
    refine hnodup.pairwise_of_forall_ne fun a ha b hb hab hname => ⟨?_, hne a ha b hb hab hname, ?_⟩
    · exact fun hindex => hab (Prod.ext hname hindex)
    · exact hne b hb a ha hab.symm hname.symm
  · intro hapart
    refine ⟨hapart.imp fun h heq => (h (congrArg _ heq)).1 (congrArg _ heq), fun a ha b hb hnone hsome hname => ?_⟩
    have hab : a ≠ b := by
      rintro rfl
      rw [hnone] at hsome
      cases hsome
    exact (hapart.forall ha hb hab hname.symm).2.1 hnone

theorem mem_qubits {t : Target} (h : t.IsIn regs) {name : String} {i : Int} : (name, i) ∈ t.qubits regs ↔
      name = t.1 ∧ (t.2 = none ∨ t.2 = some i) ∧ 0 ≤ i ∧ ∃ size, regs.lookup t.1 = some size ∧ i < size := by
  obtain ⟨size, hsize, hrange⟩ := h
  rw [qubits]
  cases hindex : t.2 with
  | some j =>
    have hj := hrange j hindex
    simp only [mem_singleton, Prod.mk.injEq, reduceCtorEq, Option.some.injEq, false_or, hsize]
    grind
  | none =>
    simp only [hsize, mem_map, mem_range, Option.getD_some, Prod.mk.injEq, true_or, true_and,
      Option.some.injEq, exists_eq_left']
    constructor
    · rintro ⟨k, hk, rfl, rfl⟩
      exact ⟨rfl, by omega, by omega⟩
    · rintro ⟨rfl, hi, hlt⟩
      exact ⟨i.toNat, by omega, rfl, by omega⟩

theorem nodup_qubits (t : Target) : (t.qubits regs).Nodup := by
  rw [qubits]
  cases t.2 with
  | some i => exact nodup_singleton _
  | none => exact nodup_range.map fun i j h => Int.ofNat_inj.mp (Prod.mk.inj h).2

/-- Operands share no qubit just if their names and indices keep them apart: every register has a qubit. -/
theorem disjoint_qubits_iff (hsizes : ∀ r ∈ regs, 0 < r.2) {a b : Target} (ha : a.IsIn regs)
    (hb : b.IsIn regs) : (a.qubits regs).Disjoint (b.qubits regs) ↔ Apart a b := by
  obtain ⟨size, hsize, hrange⟩ := id ha
  have hpos : 0 < size := hsizes _ (mem_of_lookup hsize)
  constructor
  · intro hdisjoint hname
    have hshared : ∀ i, 0 ≤ i → i < size → (a.2 = none ∨ a.2 = some i) → (b.2 = none ∨ b.2 = some i) → False := by
      intro i hi hlt hai hbi
      refine hdisjoint ((mem_qubits ha).mpr ⟨rfl, hai, hi, size, hsize, hlt⟩) ?_
      exact (mem_qubits hb).mpr ⟨hname, hbi, hi, size, hname ▸ hsize, hlt⟩
    cases hai : a.2 with
    | none =>
      cases hbi : b.2 with
      | none => exact absurd (hshared 0 le_rfl hpos (.inl hai) (.inl hbi)) id
      | some j =>
        obtain ⟨size', hsize', hrange'⟩ := hb
        rw [← hname, hsize] at hsize'
        cases hsize'
        have hj := hrange' j hbi
        exact absurd (hshared j hj.1 hj.2 (.inl hai) (.inr hbi)) id
    | some i =>
      have hi := hrange i hai
      have hb' : ¬ (b.2 = none ∨ b.2 = some i) := hshared i hi.1 hi.2 (.inr hai)
      rw [not_or] at hb'
      exact ⟨fun h => hb'.2 h.symm, Option.some_ne_none _, hb'.1⟩
  · rintro hapart ⟨name, i⟩ hmem hmem'
    obtain ⟨rfl, hai, -⟩ := (mem_qubits ha).mp hmem
    obtain ⟨hname, hbi, -⟩ := (mem_qubits hb).mp hmem'
    obtain ⟨hne, hna, hnb⟩ := hapart hname
    exact hne ((hai.resolve_left hna).trans (hbi.resolve_left hnb).symm)

/-- Operands go together just if no qubit is named twice. -/
theorem distinct_iff_nodup_qubits (hsizes : ∀ r ∈ regs, 0 < r.2) (h : ∀ t ∈ ts, t.IsIn regs) :
    Distinct ts ↔ (ts.flatMap (qubits regs)).Nodup := by
  rw [distinct_iff_pairwise, nodup_flatMap, and_iff_right fun t _ => nodup_qubits t]
  exact List.Pairwise.iff_of_mem fun ha hb => (disjoint_qubits_iff hsizes (h _ ha) (h _ hb)).symm

/-- Arguments of a gate go together just if none is named twice. -/
theorem distinct_iff_nodup_names (h : ∀ t ∈ ts, t.2 = none) : Distinct ts ↔ (ts.map Prod.fst).Nodup := by
  rw [distinct_iff_pairwise, Nodup, pairwise_map]
  exact List.Pairwise.iff_of_mem fun ha _ => ⟨fun hapart hname => (hapart hname).2.1 (h _ ha),
    fun hne hname => absurd hname hne⟩

/-- The whole registers among some operands were declared with one size. -/
theorem oneSize_iff (hnames : (regs.map Prod.fst).Nodup) (h : ∀ t ∈ ts, t.IsIn regs) :
    OneSize regs ts ↔ ∀ a ∈ ts, ∀ b ∈ ts, a.2 = none → b.2 = none → regs.lookup a.1 = regs.lookup b.1 := by
  refine forall₂_congr fun a ha => forall₂_congr fun b hb => forall₂_congr fun _ _ => ?_
  obtain ⟨m, hm, -⟩ := h a ha
  obtain ⟨n, hn, -⟩ := h b hb
  rw [Program.sizeOf?, Program.sizeOf?, lookup_reverse hnames, lookup_reverse hnames, hm, hn]
  simp

end Target

def Effect.barrier? : Effect → Option (List Target)
  | .barrier targets => some targets
  | _ => none

/-- The operands of the barriers in a declaration. -/
def GateDef.barriers (g : GateDef) : List (List Target) := g.body.filterMap fun n => n.effect?.bind Effect.barrier?

namespace Program

/-- The numbers, sizes and operands of a program agree. The barriers in the declarations of gates have no part in
this. -/
structure IsConsistent (lib : Library) (p : Program) : Prop where
  /-- Gates get as many parameters and operands as they take, also in declarations. -/
  counts : ∀ n ∈ p.body ++ p.gates.flatMap GateDef.body, ∀ name params targets,
    n.effect? = some (.apply name params targets) → Takes lib p.gates name params.length targets.length
  /-- A gate is applied to whole registers of one size. -/
  sizes : ∀ n ∈ p.body, ∀ name params targets, n.effect? = some (.apply name params targets) →
    ∀ a ∈ targets, ∀ b ∈ targets, a.2 = none → b.2 = none → p.qregs.lookup a.1 = p.qregs.lookup b.1
  /-- A register is measured into a register of its size. -/
  measured : ∀ n ∈ p.body, ∀ q c, n.effect? = some (.measure (q, none) (c, none)) → p.qregs.lookup q = p.cregs.lookup c
  /-- No gate and no barrier names a qubit twice. -/
  qubits_once : ∀ n ∈ p.body, ∀ targets,
    ((∃ name params, n.effect? = some (.apply name params targets)) ∨ n.effect? = some (.barrier targets)) →
      (targets.flatMap (Target.qubits p.qregs)).Nodup
  /-- No gate in a declaration names an argument twice. -/
  arguments_once : ∀ g ∈ p.gates, ∀ n ∈ g.body, ∀ name params targets,
    n.effect? = some (.apply name params targets) → (targets.map Prod.fst).Nodup

/-- What the checks leave out: no barrier in a declaration names an argument twice. -/
def BarriersOnce (p : Program) : Prop :=
  ∀ g ∈ p.gates, ∀ targets ∈ g.barriers, (targets.map Prod.fst).Nodup

instance (p : Program) : Decidable p.BarriersOnce :=
  inferInstanceAs (Decidable (∀ g ∈ p.gates, ∀ targets ∈ g.barriers, (targets.map Prod.fst).Nodup))

namespace Resolved

variable {lib : Library} {p : Program} {n : Node}

section

variable (h : p.Resolved lib)

include h

theorem qregs_pos : ∀ r ∈ p.qregs, 0 < r.2 :=
  fun r hr => (h.registers r (mem_append_left _ hr)).2

theorem qregs_names : (p.qregs.map Prod.fst).Nodup := by
  have hnames := h.names
  rw [map_append] at hnames
  exact hnames.of_append_left

theorem cregs_names : (p.cregs.map Prod.fst).Nodup := by
  have hnames := h.names
  rw [map_append] at hnames
  exact hnames.of_append_right

/-- What a statement of a declaration does is on the arguments of the gate. -/
theorem isInBody {g : GateDef} (hg : g ∈ p.gates) (hn : n ∈ g.body) {e : Effect}
    (he : n.effect? = some e) : ∃ before, e.IsInBody lib before g.params g.args := by
  obtain ⟨before, after, hsplit⟩ := append_of_mem hg
  obtain ⟨e', he', hin⟩ := (h.gates before g after hsplit).body n hn
  cases he.symm.trans he'
  exact ⟨before, hin⟩

/-- The checks of one gate in a declaration: arguments have no size. -/
theorem suits_argument_iff {g : GateDef} (hg : g ∈ p.gates) (hn : n ∈ g.body) {name : String}
    {params : List Term} {targets : List Target} (he : n.effect? = some (.apply name params targets)) :
    Effect.Suits lib p.gates [] (.apply name params targets) ↔
      Takes lib p.gates name params.length targets.length ∧ (targets.map Prod.fst).Nodup := by
  obtain ⟨before, -, -, -, htargets⟩ := h.isInBody hg hn he
  rw [Effect.Suits, Target.distinct_iff_nodup_names fun t ht => (htargets t ht).2]
  refine and_congr_right fun _ => and_iff_left fun a _ b _ _ _ m k hm => ?_
  cases hm

theorem measured_iff {q c : String} (hq : Target.IsIn p.qregs (q, none))
    (hc : Target.IsIn p.cregs (c, none)) : Effect.IsValid lib p (.measure (q, none) (c, none)) ↔
      p.qregs.lookup q = p.cregs.lookup c := by
  obtain ⟨m, hm, -⟩ := hq
  obtain ⟨n, hn, -⟩ := hc
  rw [Effect.IsValid, sizeOf?, sizeOf?, lookup_reverse h.qregs_names, lookup_reverse h.cregs_names]
  dsimp only at hm hn ⊢
  rw [hm, hn]
  simp

theorem isValid_iff_isConsistent (hversion : p.version = "2.0")
    (hincludes : ∀ i ∈ p.includes, i.path = "qelib1.inc") : p.IsValid lib ↔ p.IsConsistent lib := by
  constructor
  · intro hvalid
    refine ⟨fun n hn name params targets he => ?_, fun n hn name params targets he => ?_, fun n hn q c he => ?_,
      fun n hn targets he => ?_, fun g hg n hn name params targets he => ?_⟩
    · rcases mem_append.mp hn with hn | hn
      · exact (hvalid.body n hn _ he).1
      · obtain ⟨g, hg, hn⟩ := mem_flatMap.mp hn
        exact (hvalid.gates g hg n hn _ he).1
    · exact (Target.oneSize_iff h.qregs_names (h.isInProgram hn he).2.2.2).mp (hvalid.body n hn _ he).2.2
    · have hin := h.isInProgram hn he
      exact (h.measured_iff hin.1 hin.2).mp (hvalid.body n hn _ he)
    · rcases he with ⟨name, params, he⟩ | he
      · exact (Target.distinct_iff_nodup_qubits h.qregs_pos (h.isInProgram hn he).2.2.2).mp (hvalid.body n hn _ he).2.1
      · exact (Target.distinct_iff_nodup_qubits h.qregs_pos (h.isInProgram hn he).2).mp (hvalid.body n hn _ he)
    · exact ((h.suits_argument_iff hg hn he).mp (hvalid.gates g hg n hn _ he)).2
  · intro hc
    refine ⟨hversion, hincludes, fun g hg n hn e he => ?_, fun n hn e he => ?_⟩
    · cases e with
      | apply name params targets =>
        refine (h.suits_argument_iff hg hn he).mpr ⟨hc.counts n ?_ _ _ _ he, hc.arguments_once g hg n hn _ _ _ he⟩
        exact mem_append_right _ (mem_flatMap.mpr ⟨g, hg, hn⟩)
      | _ => trivial
    · have hin := h.isInProgram hn he
      cases e with
      | apply name params targets =>
        refine ⟨hc.counts n (mem_append_left _ hn) _ _ _ he, ?_, ?_⟩
        · exact (Target.distinct_iff_nodup_qubits h.qregs_pos hin.2.2.2).mpr
            (hc.qubits_once n hn _ (.inl ⟨name, params, he⟩))
        · exact (Target.oneSize_iff h.qregs_names hin.2.2.2).mpr (hc.sizes n hn _ _ _ he)
      | barrier targets =>
        exact (Target.distinct_iff_nodup_qubits h.qregs_pos hin.2).mpr (hc.qubits_once n hn _ (.inr he))
      | measure qubit clbit =>
        obtain ⟨q, i⟩ := qubit
        obtain ⟨c, j⟩ := clbit
        rintro rfl rfl
        exact (h.measured_iff hin.1 hin.2).mpr (hc.measured n hn q c he) rfl rfl

end

end Resolved

/-- The checks of a program that was read pass just if its numbers, sizes and operands agree. -/
theorem validate_iff_isConsistent {text : String} {p : Program} (hparse : parse .packaged text = .ok p)
    (hversion : p.version = "2.0") (hincludes : ∀ i ∈ p.includes, i.path = "qelib1.inc") :
    p.validate .packaged = .ok () ↔ p.IsConsistent .packaged := by
  have hresolved := resolved_of_parse Library.packaged_hasPrimitives hparse
  rw [hresolved.validate_iff Library.packaged_hasPrimitives]
  exact hresolved.isValid_iff_isConsistent hversion hincludes

/-- What a program comes to for the checks: its version, the files it includes, whether the checks pass, and whether
the barriers of its declarations name arguments once. -/
def outline (p : Program) : String × List String × Bool × Bool :=
  (p.version, p.includes.map Include.path, (p.validate .packaged).toBool, decide p.BarriersOnce)

theorem exists_of_outline {text : String} {Q : Program → Prop} (checked once : Bool)
    (h : (parse .packaged text).toOption.map outline = some ("2.0", ["qelib1.inc"], checked, once))
    (hQ : ∀ p, parse .packaged text = .ok p → p.version = "2.0" → (∀ i ∈ p.includes, i.path = "qelib1.inc") →
      (p.validate .packaged = .ok () ↔ checked) → (p.BarriersOnce ↔ once) → Q p) :
    ∃ p, parse .packaged text = .ok p ∧ Q p := by
  obtain ⟨p, hp, houtline⟩ := Option.map_eq_some_iff.mp h
  obtain ⟨hversion, hincludes, hchecked, honce⟩ : p.version = "2.0" ∧ p.includes.map Include.path = ["qelib1.inc"] ∧
      (p.validate .packaged).toBool = checked ∧ decide p.BarriersOnce = once := by
    simpa only [outline, Prod.mk.injEq] using houtline
  rw [Outcome.toOption_eq_some] at hp
  refine ⟨p, hp, hQ p hp hversion (fun i hi => ?_) ?_ ?_⟩
  · exact mem_singleton.mp (hincludes ▸ mem_map_of_mem hi)
  · rw [← hchecked]
    cases p.validate .packaged with
    | ok u => exact iff_of_true rfl rfl
    | error f => exact iff_of_false (fun h => by cases h) Bool.false_ne_true
  · rw [← honce, decide_eq_true_eq]

/-- One program passes, and with one more gate, on a qubit and the register it is in, the program does not. -/
theorem validate_iff_isConsistent_register : (∃ p, parse .packaged ("OPENQASM 2.0; include \"qelib1.inc\"; " ++
      "gate f(t) a,b\x7bcx b,a; rz(t) a;\x7d qreg q[2]; qreg r[2]; creg c[2]; f(1) q,r; barrier q,r[0]; measure r->c;") =
        .ok p ∧ p.IsConsistent .packaged) ∧
    ∃ p, parse .packaged ("OPENQASM 2.0; include \"qelib1.inc\"; " ++
      "gate f(t) a,b\x7bcx b,a; rz(t) a;\x7d qreg q[2]; qreg r[2]; creg c[2]; f(1) q,r; barrier q,r[0]; measure r->c; " ++
      "cx q[1],q;") = .ok p ∧ ¬ p.IsConsistent .packaged := by
  constructor
  · refine exists_of_outline true true (by decide +kernel) fun p hp hversion hincludes hchecked _ => ?_
    exact (validate_iff_isConsistent hp hversion hincludes).mp (hchecked.mpr rfl)
  · refine exists_of_outline false true (by decide +kernel) fun p hp hversion hincludes hchecked _ h => ?_
    exact Bool.false_ne_true (hchecked.mp ((validate_iff_isConsistent hp hversion hincludes).mpr h))

/-- A barrier in a declaration may name an argument twice. -/
theorem validate_repeated_argument :
    ∃ p, parse .packaged "OPENQASM 2.0; include \"qelib1.inc\"; gate g a \x7b barrier a,a; \x7d" = .ok p ∧
      p.version = "2.0" ∧ (∀ i ∈ p.includes, i.path = "qelib1.inc") ∧ p.validate .packaged = .ok () ∧
      ¬ p.BarriersOnce := by
  refine exists_of_outline true false (by decide +kernel) fun p _ hversion hincludes hchecked honce => ?_
  exact ⟨hversion, hincludes, hchecked.mpr rfl, fun h => Bool.false_ne_true (honce.mp h)⟩

end Program

end QasmCircuit
