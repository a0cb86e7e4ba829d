import QasmCircuit.Proofs.Lowering.Statement

/-!
# Circuits of programs

A checked program is brought into a new circuit statement by statement. `Action.ends_lower` says what becomes of it: a
circuit whose registers are those of the program, in order, and which is what the program comes to once it is
flattened; or a problem of `Program.Refusal`, if the program comes to nothing.
-/

namespace QasmCircuit

open Outcome List

variable {p : Program} {regs regs' : List Register} {ds : List (String × Int)} {lib : Library} {s : Store}
  {c : CircuitId} {x : Circuit}

/-! ## Registers -/

/-- A register has the kind, the name and the size of a declaration. -/
def Register.Declares (kind : RegisterKind) (d : String × Int) (r : Register) : Prop :=
  r.kind = kind ∧ r.name = d.1 ∧ (r.size : Int) = d.2

namespace Program

/-- Some registers are those of a program in order, the quantum ones first. -/
def Declares (p : Program) (regs : List Register) : Prop :=
  ∃ quantum classical, regs = quantum ++ classical ∧ Forall₂ (Register.Declares .quantum) p.qregs quantum ∧
    Forall₂ (Register.Declares .classical) p.cregs classical

variable {kind : RegisterKind} {registers' : List Register}

theorem map_name_of_declares
    (h : Forall₂ (Register.Declares kind) ds regs) : regs.map Register.name = ds.map Prod.fst := by
  rw [maps_eq_iff]
  exact h.flip.imp fun _ _ h => h.2.1

theorem Declares.map_name (h : p.Declares regs) : regs.map Register.name = (p.qregs ++ p.cregs).map Prod.fst := by
  obtain ⟨quantum, classical, rfl, hquantum, hclassical⟩ := h
  rw [map_append, map_append, map_name_of_declares hquantum, map_name_of_declares hclassical]

theorem eq_of_declares (h : Forall₂ (Register.Declares kind) ds regs)
    (h' : Forall₂ (Register.Declares kind) ds regs') : regs = regs' := by
  induction h generalizing regs' with
  | nil =>
    cases h'
    rfl
  | @cons d r ds rs hr _ ih =>
    cases h' with
    | @cons _ q _ qs hq hqs =>
      have hsame : r = q := by
        obtain ⟨kind', name, size, name_valid, size_pos⟩ := r
        obtain ⟨rfl, rfl, hsize⟩ := hr
        obtain ⟨kind'', name', size', name_valid', size_pos'⟩ := q
        obtain ⟨rfl, rfl, hsize'⟩ := hq
        cases Int.ofNat.inj (hsize.trans hsize'.symm)
        rfl
      rw [hsame, ih hqs]

/-- A program determines its registers. -/
theorem Declares.unique (h : p.Declares regs) (h' : p.Declares regs') : regs = regs' := by
  obtain ⟨quantum, classical, rfl, hquantum, hclassical⟩ := h
  obtain ⟨quantum', classical', rfl, hquantum', hclassical'⟩ := h'
  rw [eq_of_declares hquantum hquantum', eq_of_declares hclassical hclassical']

theorem Declares.provides (h : p.Declares regs) (hnames : ((p.qregs ++ p.cregs).map Prod.fst).Nodup) :
    p.Provides regs := by
  have hnames : (regs.map Register.name).Nodup := h.map_name ▸ hnames
  obtain ⟨quantum, classical, rfl, hquantum, hclassical⟩ := h
  refine ⟨hnames, fun name size hsize => ?_, fun name size hsize => ?_⟩
  · obtain ⟨r, hr, hkind, hname, hsize⟩ := exists_of_forall₂ hquantum.flip _ (mem_of_lookup hsize)
    exact ⟨r, mem_append_left _ hr, hname, hkind, hsize⟩
  · obtain ⟨r, hr, hkind, hname, hsize⟩ := exists_of_forall₂ hclassical.flip _ (mem_of_lookup hsize)
    exact ⟨r, mem_append_right _ hr, hname, hkind, hsize⟩

theorem Declares.isShort (h : p.Declares regs) (hsizes : ∀ d ∈ p.qregs ++ p.cregs, Text.isShort d.2) :
    ∀ r ∈ regs, Text.isShort r.size := by
  obtain ⟨quantum, classical, rfl, hquantum, hclassical⟩ := h
  refine forall_mem_append.mpr ⟨fun r hr => ?_, fun r hr => ?_⟩
  · obtain ⟨d, hd, -, -, hsize⟩ := exists_of_forall₂ hquantum r hr
    exact hsize ▸ hsizes d (mem_append_left _ hd)
  · obtain ⟨d, hd, -, -, hsize⟩ := exists_of_forall₂ hclassical r hr
    exact hsize ▸ hsizes d (mem_append_right _ hd)

/-- The names of registers start with lower-case letters. -/
theorem Declares.startsLower (h : p.Declares regs) (hregs : ∀ d ∈ p.qregs ++ p.cregs, IsRegister d) :
    ∀ d ∈ p.qregs ++ p.cregs, startsLower d.1 := by
  intro d hd
  rw [← isIdentifier_of_isWord (hregs d hd).1]
  have hname : d.1 ∈ regs.map Register.name := h.map_name ▸ mem_map_of_mem hd
  obtain ⟨r, -, hr⟩ := mem_map.mp hname
  rw [← hr]
  exact r.name_valid

end Program

namespace Action

open Store Program

/-- A register is made, unless its name does not start with a lower-case letter. -/
theorem make_cases {d : String × Int} (hd : IsRegister d) (kind : RegisterKind) :
    (∃ r, Register.make kind (.datum (.text d.1)) (.datum (.int d.2)) = .ok r ∧ Register.Declares kind d r) ∨
    (startsLower d.1 = false ∧ Register.make kind (.datum (.text d.1)) (.datum (.int d.2)) =
      .error (Fault.of (.register (.invalidName (Datum.text d.1).shown)))) := by
  rw [← isIdentifier_of_isWord hd.1]
  unfold Register.make
  dsimp only
  by_cases hname : isIdentifier d.1
  · have hsize : 0 < d.2.toNat := Int.lt_toNat.mpr hd.2
    rw [dif_pos hname, dif_pos hsize]
    exact .inl ⟨_, rfl, rfl, rfl, Int.toNat_of_nonneg hd.2.le⟩
  · rw [dif_neg hname]
    exact .inr ⟨Bool.eq_false_iff.mpr hname, rfl⟩

theorem mapM_make_cases (hds : ∀ d ∈ ds, IsRegister d) (kind : RegisterKind) :
    (∃ rs, (ds.mapM fun d => Register.make kind (.datum (.text d.1)) (.datum (.int d.2))) = .ok rs ∧
      Forall₂ (Register.Declares kind) ds rs) ∨ ∃ d ∈ ds, startsLower d.1 = false ∧
      (ds.mapM fun d => Register.make kind (.datum (.text d.1)) (.datum (.int d.2))) =
        .error (Fault.of (.register (.invalidName (Datum.text d.1).shown))) := by
  induction ds with
  | nil => exact .inl ⟨[], rfl, .nil⟩
  | cons d ds ih =>
    rw [forall_mem_cons] at hds
    rw [mapM_cons]
    rcases make_cases hds.1 kind with ⟨r, hr, hdeclares⟩ | ⟨hname, herror⟩
    · rw [hr]
      rcases ih hds.2 with ⟨rs, hrs, hall⟩ | ⟨d', hd', hname, herror⟩
      · rw [hrs]
        exact .inl ⟨r :: rs, rfl, .cons hdeclares hall⟩
      · rw [herror]
        exact .inr ⟨d', mem_cons_of_mem d hd', hname, rfl⟩
    · rw [herror]
      exact .inr ⟨d, mem_cons_self, hname, rfl⟩

variable {rs : List Register}

theorem putRegister_of_new {r : Register} (h : ∀ q ∈ rs, q.name ≠ r.name) : putRegister r rs = rs ++ [r] := by
  induction rs with
  | nil => rfl
  | cons q rs ih =>
    rw [forall_mem_cons] at h
    rw [putRegister, if_neg (fun hname => h.1 (beq_iff_eq.mp hname)), ih h.2]
    rfl

theorem foldl_putRegister {before : List Register} (h : ((before ++ rs).map Register.name).Nodup) :
    rs.foldl (fun acc r => putRegister r acc) before = before ++ rs := by
  induction rs generalizing before with
  | nil => exact (append_nil before).symm
  | cons r rs ih =>
    have hnew : ∀ q ∈ before, q.name ≠ r.name := by
      rw [map_append, nodup_append] at h
      exact fun q hq => h.2.2 _ (mem_map_of_mem hq) _ (mem_map_of_mem mem_cons_self)
    rw [foldl_cons, putRegister_of_new hnew, ih]
    · rw [append_assoc]
      rfl
    · rw [append_assoc]
      exact h

/-- The registers of a program are made, unless a name does not start with a lower-case letter. -/
theorem programRegisters_cases (hregs : ∀ d ∈ p.qregs ++ p.cregs, IsRegister d)
    (hnames : ((p.qregs ++ p.cregs).map Prod.fst).Nodup) :
    (∃ regs, programRegisters p = .ok regs ∧ p.Declares regs) ∨
    ∃ d ∈ p.qregs ++ p.cregs, Program.startsLower d.1 = false ∧
      programRegisters p = .error (Fault.of (.register (.invalidName (Datum.text d.1).shown))) := by
  unfold programRegisters
  rcases mapM_make_cases (fun d hd => hregs d (mem_append_left _ hd)) .quantum with
    ⟨quantum, hquantum, hqs⟩ | ⟨d, hd, hname, herror⟩
  · rcases mapM_make_cases (fun d hd => hregs d (mem_append_right _ hd)) .classical with
      ⟨classical, hclassical, hcs⟩ | ⟨d, hd, hname, herror⟩
    · have hdeclares : p.Declares (quantum ++ classical) := ⟨quantum, classical, rfl, hqs, hcs⟩
      refine .inl ⟨quantum ++ classical, ?_, hdeclares⟩
      have hfold := @foldl_putRegister (quantum ++ classical) [] (hdeclares.provides hnames).names
      rw [nil_append] at hfold
      rw [← hfold]
      exact bind_eq_ok.mpr ⟨quantum, hquantum, bind_eq_ok.mpr ⟨classical, hclassical, rfl⟩⟩
    · refine .inr ⟨d, mem_append_right _ hd, hname, ?_⟩
      show ((p.qregs.mapM fun d => Register.make .quantum (.datum (.text d.1)) (.datum (.int d.2))) >>= _) = _
      rw [hquantum]
      exact bind_of_error herror _
  · exact .inr ⟨d, mem_append_left _ hd, hname, bind_of_error herror _⟩

/-! ## The new circuit -/

theorem check_of_nodup {taken : List String} (hnames : (rs.map Register.name).Nodup)
    (hfree : ∀ r ∈ rs, r.name ∉ taken) : addRegisters.check x taken (rs.map .register) = .ok rs := by
  induction rs generalizing taken with
  | nil => rfl
  | cons r rs ih =>
    rw [map_cons, nodup_cons] at hnames
    rw [forall_mem_cons] at hfree
    have htaken : ¬ taken.contains r.name := fun h => hfree.1 (contains_iff_mem.mp h)
    rw [map_cons, addRegisters.check, if_neg htaken]
    refine bind_eq_ok.mpr ⟨rs, ih hnames.2 fun q hq hmem => ?_, rfl⟩
    rcases mem_cons.mp hmem with hname | hmem
    · exact hnames.1 (hname ▸ mem_map_of_mem hq)
    · exact hfree.2 q hq hmem

theorem ends_addRegisters (hx : s.circuit? c = some x)
    (hnames : ((x.registers ++ regs).map Register.name).Nodup) (hshort : ∀ r ∈ regs, Text.isShort r.size) :
    (addRegisters c (regs.map .register)).Attains s fun _ t => t.instructions = s.instructions ∧
        ∀ d, t.circuit? d = if d = c then some { x with registers := x.registers ++ regs } else s.circuit? d := by
  rw [map_append, nodup_append] at hnames
  have hcheck := returns_lift s
    (check_of_nodup (x := x) hnames.2.1 fun r hr hmem => hnames.2.2 _ hmem _ (mem_map_of_mem hr) rfl)
  refine (returns_circuit hx).ends_bind.mpr (hcheck.ends_bind.mpr ((ends_declareRegisters hx regs).imp ?_ ?_))
  · exact fun _ t ht => ⟨ht.2.1, fun d => (congrArg (·[d]?) ht.2.2).trans (Store.circuit?_putCircuit hx d)⟩
  · rintro e t ⟨-, before, r, after, rfl, -, hlong, -⟩
    exact Bool.false_ne_true (hlong.symm.trans (hshort r (mem_append_right _ mem_cons_self)))

/-- A new circuit has the registers that it was asked for and no instruction yet. -/
theorem ends_newCircuit (hnames : (regs.map Register.name).Nodup) (hshort : ∀ r ∈ regs, Text.isShort r.size)
    (name : Option Datum) :
    (newCircuit name lib (regs.map .register)).Attains s fun c t => c = s.circuits.size ∧
        t.instructions = s.instructions ∧ ∃ label, t.circuit? c = some ⟨label, lib, regs, []⟩ := by
  have hrest : ∀ (label : Datum) (t : Store), t.instructions = s.instructions → t.circuits = s.circuits → Attains (do
      let c ← modifyGet fun s => (s.circuits.size, { s with circuits := s.circuits.push ⟨label, lib, [], []⟩ })
      addRegisters c (regs.map .register)
      pure c) t fun c u => c = s.circuits.size ∧ u.instructions = s.instructions ∧
        ∃ label, u.circuit? c = some ⟨label, lib, regs, []⟩ := by
    intro label t hinstructions hcircuits
    have hnew : Store.circuit? { t with circuits := t.circuits.push ⟨label, lib, [], []⟩ } t.circuits.size =
        some ⟨label, lib, [], []⟩ := Array.getElem?_push_size
    refine ends_bind.mpr (ends_modifyGet.mpr ((ends_addRegisters hnew hnames hshort).bind fun _ u hu => ?_))
    refine ⟨congrArg Array.size hcircuits, hu.1.trans hinstructions, label, ?_⟩
    rw [hu.2, if_pos rfl]
    rfl
  cases name with
  | some label => exact hrest label s rfl rfl
  | none => exact hrest _ { s with numbered := s.numbered + 1 } rfl rfl

/-! ## Whole programs -/

end Action

theorem Library.packaged_hasPrimitives : Library.packaged.HasPrimitives := by
  have hunitary : ((packaged.find? "u3").any fun f => f.params.length == 3 && f.arity == 1) := by decide +kernel
  have hnot : ((packaged.find? "cx").any fun f => f.params.length == 0 && f.arity == 2) := by decide +kernel
  obtain ⟨f, hf, hfamily⟩ := (Option.any_eq_true _ _).mp hunitary
  obtain ⟨g, hg, hfamily'⟩ := (Option.any_eq_true _ _).mp hnot
  rw [Bool.and_eq_true, beq_iff_eq, beq_iff_eq] at hfamily hfamily'
  exact ⟨⟨f, hf, hfamily⟩, ⟨g, hg, hfamily'⟩, by decide +kernel⟩

/-- A program was brought into a circuit. -/
structure Program.IsLowered (lib : Library) (p : Program) (s : Store) (c : CircuitId) (t : Store) (x : Circuit)
    (xs : List Instruction) : Prop where
  number : c = s.circuits.size
  stored : t.circuit? c = some x
  library : x.library = lib
  registers : p.Declares x.registers
  meaning : p.instructions? lib c x.registers = some xs
  placed : Store.Placed (Instruction.IsOf c p.gates) s.instructions.size t x.data xs

namespace Program.IsLowered

variable {t : Store} {xs : List Instruction}

theorem flattened (h : p.IsLowered lib s c t x xs) : t.flattened c = some xs := by
  rw [Store.flattened_of_some h.stored]
  exact Store.expandAll_mono h.placed.expand (Nat.sub_le _ _)

/-- No gate is made twice, so that none stands at two places. -/
theorem nodup_placesAt (h : p.IsLowered lib s c t x xs) (n : Nat) : (t.placesAt n c).Nodup := by
  rw [Store.placesAt_of_some h.stored]
  exact h.placed.nodup_gatesAt n

end Program.IsLowered

namespace Action

open Store Program

/-- A statement is lowered at its place in the text. -/
theorem answers_atStatement (hres : p.Resolved lib) (hvalid : p.IsValid lib)
    (hp : p.Provides regs) {home : CircuitId} (hk : s.Site lib regs home (fun _ => True) (.circuit home))
    {n : Node} (hn : n ∈ p.body) : Answers (do
      let position ← lift (placeOf n)
      note s!"Lowering statement at line {position.line}"
      atStatement position (lowerStatement home regs p.gates n)) s (n.expansion? lib home regs p.gates)
      (Refuses lib p) fun xs _ t => Builds (Instruction.IsOf home p.gates) (.circuit home) xs s t := by
  obtain ⟨position, hplace, hposition⟩ := (hres.body n hn).placed
  have hlift := returns_lift s hplace
  have hnoted : ∀ notes, Store.Site lib regs home (fun _ => True) { s with notes } (.circuit home) :=
    fun _ => ⟨hk.names, hk.circuit, hk.accepts⟩
  refine hlift.ends_bind.mpr (ends_bind.mpr (ends_modify.mpr (ends_tryCatch.mpr ?_)))
  refine Ends.imp (answers_lowerStatement hres hvalid hp (hnoted _) hn) (fun _ t ht => ?_) fun e t ht => ?_
  · obtain ⟨xs, hxs, is, hfilled, hplaced⟩ := ht
    exact ⟨xs, hxs, is, ⟨hfilled.size_le, hfilled.old, hfilled.circuits⟩, hplaced⟩
  · exact ends_throw.mpr ⟨ht.1, ht.2.relocate hposition⟩

/-- A checked program becomes a circuit that holds what the program comes to. -/
theorem ends_lower (hlib : lib.HasPrimitives) (hres : p.Resolved lib) (hvalid : p.IsValid lib)
    (hsizes : ∀ d ∈ p.qregs ++ p.cregs, Text.isShort d.2) (name : Option Datum) : (lower lib name p).Ends s
    (fun c t => ∃ x xs, p.IsLowered lib s c t x xs) fun e _ => Refuses lib p e ∧
        ∀ regs, p.Declares regs → p.instructions? lib s.circuits.size regs = none := by
  have hvalidate := returns_lift s ((hres.validate_iff hlib).mpr hvalid)
  refine hvalidate.ends_bind.mpr ?_
  rcases programRegisters_cases hres.registers hres.names with ⟨regs, hregs, hdeclares⟩ | ⟨d, hd, hname, herror⟩
  · have hprovides := hdeclares.provides hres.names
    have hlift := returns_lift s hregs
    refine hlift.ends_bind.mpr (ends_bind.mpr ((ends_newCircuit hprovides.names (hdeclares.isShort hsizes) name).ends
      fun c t ht => ?_))
    obtain ⟨rfl, hinstructions, label, hcircuit⟩ := ht
    have hk : t.Site lib regs s.circuits.size (fun _ => True) (.circuit s.circuits.size) :=
      ⟨hprovides.names, ⟨_, hcircuit, rfl, rfl⟩, rfl⟩
    have hbody := answers_forM_builds (fun n hn u hu => answers_atStatement hres hvalid hprovides hu hn) hk
    refine ends_bind.mpr (hbody.imp (fun _ u hu => ?_) fun e u hu => ?_)
    · obtain ⟨parts, hparts, is, hfilled, hplaced⟩ := hu
      have hstored := hfilled.circuits _ _ hcircuit
      rw [Container.forCircuit, if_pos rfl, nil_append] at hstored
      rw [hinstructions] at hplaced
      refine ⟨_, parts.flatten, rfl, hstored, rfl, hdeclares, ?_, hplaced⟩
      rw [instructions?, hparts]
      rfl
    · refine ⟨hu.2, fun regs' hdeclares' => ?_⟩
      rw [hdeclares'.unique hdeclares, instructions?, hu.1]
      rfl
  · have hlift : (lift (programRegisters p)).Ends s (fun _ _ => False) fun e _ => Refuses lib p e := by
      rw [herror]
      exact (Refusal.register hd hname).refuses _ _
    refine ends_bind.mpr (hlift.imp (fun _ _ h => h.elim) fun _ _ h => ⟨h, fun regs hdeclares => ?_⟩)
    rw [hdeclares.startsLower hres.registers d hd] at hname
    cases hname

/-- A circuit from a text holds what the program in the text comes to. -/
theorem ends_ofText (hlib : lib.HasPrimitives) (text : String) : (ofText lib text).Ends s
    (fun c t => ∃ p x xs, Program.parse lib text = .ok p ∧ p.IsLowered lib s c t x xs) fun _ _ => True := by
  refine ends_bind.mpr (ends_lift (fun p hp => ?_) fun _ _ => trivial)
  have hres := resolved_of_parse hlib hp
  cases hvalidate : p.validate lib with
  | ok _ =>
    have hvalid := (hres.validate_iff hlib).mp hvalidate
    refine (ends_lower hlib hres hvalid (isShort_of_parse hp).1 none).imp (fun c t ht => ?_) fun _ _ _ => trivial
    obtain ⟨x, xs, hlowered⟩ := ht
    exact ⟨p, x, xs, hp, hlowered⟩
  | error e =>
    unfold lower
    rw [hvalidate]
    exact ends_bind.mpr (ends_throw.mpr trivial)

/-- A program that was read and checked becomes a circuit, or it has one of the problems that the checks leave: the name
of a register or of a called gate that does not start with a lower-case letter, a parameter that is not finite or not
defined, a barrier in a called gate that names an argument twice. Only a barrier over a register with too many qubits
to list them stops it with a fault that is not such a problem. -/
theorem lower_of_validate {text : String} {p : Program} (hparse : Program.parse .packaged text = .ok p)
    (hvalid : p.validate .packaged = .ok ()) (name : Option Datum) (s : Store) :
    (lower .packaged name p).Ends s (fun c t => ∃ x xs, p.IsLowered .packaged s c t x xs)
      fun e _ => (∃ code problem position cause, e = .problem problem position cause ∧ problem.code = code ∧
        Refusal .packaged p code problem) ∨ e = .tooLarge ∧ p.HasLongBarrier := by
  have hres := resolved_of_parse Library.packaged_hasPrimitives hparse
  have hisValid := (hres.validate_iff Library.packaged_hasPrimitives).mp hvalid
  have hsizes := (isShort_of_parse hparse).1
  exact (ends_lower Library.packaged_hasPrimitives hres hisValid hsizes name).imp (fun _ _ h => h) fun _ _ h => h.1

/-- A declared gate under a guard that calls another one, whose barrier names an argument twice. -/
theorem lower_of_validate_repeated_argument : ∃ p,
    Program.parse .packaged ("OPENQASM 2.0; include \"qelib1.inc\"; gate f(t) a,b\x7brx(1/t) a; barrier b,a,b;\x7d " ++
      "gate g a,b\x7bf(2) b,a; cx a,b;\x7d qreg q[2]; creg c[2]; if(c==2) g q[1],q[0];") = .ok p ∧
    p.validate .packaged = .ok () ∧
    (lower .packaged none p).Ends {} (fun c t => ∃ x xs, p.IsLowered .packaged {} c t x xs)
      fun e _ => (∃ code problem position cause, e = .problem problem position cause ∧ problem.code = code ∧
        Refusal .packaged p code problem) ∨ e = .tooLarge ∧ p.HasLongBarrier := by
  have hchecked : (Program.parse .packaged ("OPENQASM 2.0; include \"qelib1.inc\"; " ++
      "gate f(t) a,b\x7brx(1/t) a; barrier b,a,b;\x7d " ++
      "gate g a,b\x7bf(2) b,a; cx a,b;\x7d qreg q[2]; creg c[2]; if(c==2) g q[1],q[0];") >>= fun p =>
        p.validate .packaged).toOption = some () := by
    decide +kernel
  obtain ⟨p, hp, hvalid⟩ := bind_eq_ok.mp (toOption_eq_some.mp hchecked)
  exact ⟨p, hp, hvalid, lower_of_validate hp hvalid none {}⟩

/-- A program that is read and checked, and then fails on a barrier over a register of too many qubits. -/
theorem lower_fails_long_barrier : ∃ p,
    Program.parse .packaged
      "OPENQASM 2.0; include \"qelib1.inc\"; qreg q[100000000000000000000]; barrier q;" = .ok p ∧
    p.validate .packaged = .ok () ∧ ((lower .packaged none p).outcome {}).1 = .error .tooLarge := by
  have hlowered : (Program.parse .packaged
      "OPENQASM 2.0; include \"qelib1.inc\"; qreg q[100000000000000000000]; barrier q;").toOption.any (fun p =>
        decide (p.validate .packaged = .ok () ∧ ((lower .packaged none p).outcome {}).1 =
        .error .tooLarge)) = true := by
    decide +kernel
  obtain ⟨p, hp, hfails⟩ := (Option.any_eq_true _ _).mp hlowered
  exact ⟨p, toOption_eq_some.mp hp, of_decide_eq_true hfails⟩

end Action

end QasmCircuit
