import QasmCircuit.Circuit.Declaration
import QasmCircuit.Proofs.Circuit.Lines
import QasmCircuit.Proofs.Program.Named

/-!
# Calls on the registers of a program

A program declares the quantum registers of a circuit first, and then the classical ones. Bits and conditions of the
circuit are written as operands and guards, which stand for bits of the same name and index and for the same condition
in the registers of the program. So a call on bits can be read back, and it comes to what the gate comes to on these
bits (`Instruction.Calls.expansion?_callNode`).
-/

namespace QasmCircuit

open Outcome List

variable {regs : List Register} {r : Register} {p : Program} {lib : Library} {s : String}

/-! ## Registers of a program -/

/-- Whether a text is a lower-case letter with letters, digits and underscores behind it. -/
def isPlainName (s : String) : Bool :=
  match s.toList with
  | [] => false
  | c :: cs => isLower c && cs.all Lexeme.isWordChar

theorem isWordStart_of_isLower {c : Char} (h : isLower c) : Lexeme.isWordStart c := by
  obtain ⟨hlow, hhigh⟩ := Bool.and_eq_true_iff.mp h
  have hletter : c.isLower :=
    Bool.and_eq_true_iff.mpr ⟨decide_eq_true (of_decide_eq_true hlow), decide_eq_true (of_decide_eq_true hhigh)⟩
  have halpha : c.isAlpha := Bool.or_eq_true_iff.mpr (.inr hletter)
  rw [Lexeme.isWordStart, halpha, Bool.true_or]

/-- A plain name is a word that begins with a lower-case letter. -/
theorem isPlainName_iff : isPlainName s ↔ Lexeme.isWord s ∧ Program.startsLower s := by
  unfold isPlainName Lexeme.isWord Program.startsLower
  cases s.toList with
  | nil => exact ⟨fun h => ⟨h, h⟩, fun h => h.1⟩
  | cons c cs =>
    dsimp only [head?_cons, Option.any_some]
    rw [Bool.and_eq_true, Bool.and_eq_true]
    exact ⟨fun h => ⟨⟨isWordStart_of_isLower h.1, h.2⟩, h.1⟩, fun h => ⟨h.2, h.1.2⟩⟩

theorem Program.startsLower_append (h : startsLower s) (t : String) : startsLower (s ++ t) := by
  obtain ⟨c, hc, hlower⟩ := (Option.any_eq_true ..).mp h
  refine (Option.any_eq_true ..).mpr ⟨c, ?_, hlower⟩
  rw [String.toList_append, head?_append, hc]
  rfl

/-- Registers that a program can declare: quantum and classical ones with words as names, all of them different. -/
structure Register.AreWritable (regs : List Register) : Prop where
  names : (regs.map Register.name).Nodup
  words : ∀ r ∈ regs, Lexeme.isWord r.name
  kinds : ∀ r ∈ regs, r.kind ≠ .plain

/-- Registers in the order in which a program declares them. -/
def Register.sorted (regs : List Register) : List Register :=
  regs.filter isQuantum ++ regs.filter isClassical

/-- A program has some registers. -/
structure Program.HasRegisters (p : Program) (regs : List Register) : Prop where
  quantum : p.qregs = Action.declarations .quantum regs
  classical : p.cregs = Action.declarations .classical regs

namespace Register

variable {kind : RegisterKind}

theorem filter_classical (hkinds : ∀ r ∈ regs, r.kind ≠ .plain) :
    regs.filter (fun r => !r.isQuantum) = regs.filter isClassical := by
  refine filter_congr fun r hr => ?_
  unfold isQuantum isClassical
  cases hk : r.kind with
  | plain => exact absurd hk (hkinds r hr)
  | _ => rfl

theorem perm_sorted (hkinds : ∀ r ∈ regs, r.kind ≠ .plain) : (sorted regs).Perm regs := by
  rw [sorted, ← filter_classical hkinds]
  exact filter_append_perm _ _

theorem AreWritable.perm_sorted (h : AreWritable regs) : (sorted regs).Perm regs :=
  Register.perm_sorted h.kinds

theorem AreWritable.nodup_sorted (h : AreWritable regs) : ((sorted regs).map name).Nodup :=
  (h.perm_sorted.map _).nodup_iff.mpr h.names

theorem declares_declarations (kind : RegisterKind) (regs : List Register) :
    Forall₂ (Declares kind) (Action.declarations kind regs) (regs.filter fun r => r.kind == kind) := by
  rw [Action.declarations, forall₂_map_left_iff, forall₂_same]
  intro r hr
  exact ⟨beq_iff_eq.mp (mem_filter.mp hr).2, rfl, rfl⟩

theorem lookup_declarations (hnames : (regs.map name).Nodup) (hr : r ∈ regs) (hkind : r.kind = kind) :
    (Action.declarations kind regs).lookup r.name = some (r.size : Int) := by
  refine lookup_of_mem ?_ (mem_map.mpr ⟨r, mem_filter.mpr ⟨hr, beq_iff_eq.mpr hkind⟩, rfl⟩)
  rw [Action.declarations, map_map]
  exact hnames.sublist (filter_sublist.map _)

end Register

namespace Program.HasRegisters

section

variable (h : p.HasRegisters regs)

include h

theorem declares : p.Declares (Register.sorted regs) := by
  refine ⟨_, _, rfl, ?_, ?_⟩
  · rw [h.quantum]
    exact Register.declares_declarations .quantum regs
  · rw [h.classical]
    exact Register.declares_declarations .classical regs

theorem exists_register : ∀ d ∈ p.qregs ++ p.cregs, ∃ r ∈ regs, (r.name, (r.size : Int)) = d := by
  rw [h.quantum, h.classical]
  intro d hd
  rcases mem_append.mp hd with hd | hd
  all_goals
    obtain ⟨r, hr, rfl⟩ := mem_map.mp hd
    exact ⟨r, (mem_filter.mp hr).1, rfl⟩

theorem isShort (hsizes : ∀ r ∈ regs, Text.isShort r.size) : ∀ d ∈ p.qregs ++ p.cregs, Text.isShort d.2 := by
  intro d hd
  obtain ⟨r, hr, rfl⟩ := h.exists_register d hd
  exact hsizes r hr

section

variable (hregs : Register.AreWritable regs)

include hregs

theorem isRegister : ∀ d ∈ p.qregs ++ p.cregs, IsRegister d := by
  intro d hd
  obtain ⟨r, hr, rfl⟩ := h.exists_register d hd
  exact ⟨hregs.words r hr, Int.natCast_pos.mpr r.size_pos⟩

theorem nodup_names : ((p.qregs ++ p.cregs).map Prod.fst).Nodup :=
  h.declares.map_name ▸ hregs.nodup_sorted

end

end

end Program.HasRegisters

/-! ## Bits -/

namespace Bit

/-- What a statement calls a bit. -/
def target (b : Bit) : Target := (b.register.name, some (b.index : Int))

/-- The bit of the same name and index in other registers. -/
def moved (regs : List Register) (b : Bit) : Bit :=
  ((regs.find? fun r => r.name == b.register.name).bind fun r => (r.bit (.int b.index)).toOption).getD b

variable {kind : RegisterKind} {b : Bit} {bits : List Bit}

theorem key_moved (regs : List Register) (b : Bit) : (b.moved regs).key = b.key := by
  unfold moved
  cases hfind : regs.find? fun r => r.name == b.register.name with
  | none => rfl
  | some r =>
    rw [Option.bind_some]
    cases hbit : r.bit (.int b.index) with
    | error e => rfl
    | ok b' =>
      obtain ⟨hregister, hindex⟩ := Register.bit_eq_ok.mp hbit
      have hname := beq_iff_eq.mp (@find?_some _ (fun r : Register => r.name == b.register.name) r regs hfind)
      show (b'.register.name, b'.index) = (b.register.name, b.index)
      rw [hregister, hname, Int.ofNat.inj hindex]

theorem map_key_moved (regs : List Register) (bits : List Bit) : (bits.map (moved regs)).map key = bits.map key := by
  rw [map_map]
  exact map_congr_left fun b _ => key_moved regs b

section

variable (hnames : (regs.map Register.name).Nodup)

include hnames

theorem operand?_target (hb : b.IsIn regs kind) : Target.operand? regs b.target = some (.bit (b.moved regs)) := by
  obtain ⟨-, r, hr, hname, -, hindex⟩ := hb
  have hfind : (regs.find? fun r => r.name == b.register.name) = some r :=
    hname ▸ Circuit.find?_register hnames hr
  unfold Target.operand? moved target
  dsimp only
  rw [hfind, Option.bind_some, Option.bind_some, Register.bit_of_lt hindex]
  rfl

theorem mapM_operand?_target (hbits : ∀ b ∈ bits, b.IsIn regs kind) :
    (bits.map target).mapM (Target.operand? regs) = some ((bits.map (moved regs)).map .bit) := by
  rw [mapM_eq_some, forall₂_map_left_iff, map_map, forall₂_map_right_iff, forall₂_same]
  exact fun b hb => operand?_target hnames (hbits b hb)

/-- Bits of the same name and index have one place in other registers. -/
theorem moved_eq_of_key {kind' : RegisterKind} {a : Bit}
    (ha : a.IsIn regs kind) (hb : b.IsIn regs kind') (h : a.key = b.key) :
    a.moved regs = b.moved regs := by
  have htarget : a.target = b.target := by
    obtain ⟨hname, hindex⟩ := Prod.mk.inj h
    rw [target, target, hname, hindex]
  have hmoved := operand?_target hnames ha
  rw [htarget, operand?_target hnames hb] at hmoved
  exact (Argument.bit.inj (Option.some.inj hmoved)).symm

end

theorem text_eq_of_key {a : Bit} (h : a.key = b.key) : a.text = b.text := by
  obtain ⟨hname, hindex⟩ := Prod.mk.inj h
  rw [text, text, hname, hindex]

theorem map_text_of_key {as bs : List Bit} (h : as.map key = bs.map key) : as.map text = bs.map text := by
  rw [maps_eq_iff] at h ⊢
  exact h.imp fun _ _ hkey => text_eq_of_key hkey

theorem nodup_target (h : distinct bits) : (bits.map target).Nodup := by
  rw [distinct_iff] at h
  rw [Nodup, pairwise_map] at h ⊢
  refine h.imp fun hne htarget => hne ?_
  obtain ⟨hname, hindex⟩ := Prod.mk.inj htarget
  exact Prod.ext hname (Int.ofNat.inj (Option.some.inj hindex))

/-- Single bits go together if they are different ones. -/
theorem distinct_target (h : distinct bits) : Target.Distinct (bits.map target) := by
  refine ⟨nodup_target h, fun t ht _ _ hnone => ?_⟩
  obtain ⟨b, -, rfl⟩ := mem_map.mp ht
  cases hnone

theorem oneSize_target (regs : List (String × Int)) (bits : List Bit) : Target.OneSize regs (bits.map target) := by
  intro t ht _ _ hnone
  obtain ⟨b, -, rfl⟩ := mem_map.mp ht
  cases hnone

def toRef (kind : RefKind) (b : Bit) : Ref := ⟨kind, b.register.name, some b.index, .origin⟩

theorem map_bitRef (kind : RefKind) (bits : List Bit) : bits.map (bitRef kind) = (bits.map (toRef kind)).map .ref := by
  rw [map_map]
  rfl

theorem map_canonical_bitRef (kind : RefKind) (bits : List Bit) :
    (bits.map (bitRef kind)).map Term.canonical = bits.map (bitRef kind) := by
  rw [map_map]
  rfl

theorem mapM_target?_bitRef {kind : RefKind} (hkind : kind ≠ .primitive) (bits : List Bit) :
    (bits.map (bitRef kind)).mapM Term.target? = some (bits.map target) := by
  rw [mapM_eq_some, forall₂_map_left_iff, forall₂_map_right_iff, forall₂_same]
  intro b _
  show Option.map Ref.target (if kind = .primitive then Except.error Fault.missingPart else .ok
    (b.toRef kind)).toOption = _
  rw [if_neg hkind]
  rfl

theorem text_toRef (kind : RefKind) (b : Bit) : (b.toRef kind).text = b.text := by
  show b.register.name ++ "[" ++ toString (b.index : Int) ++ "]" = _
  rfl

theorem isWritable_toRef (h : Register.AreWritable regs) (hb : b.IsIn regs kind) (k : RefKind) :
    (b.toRef k).IsWritable := by
  obtain ⟨-, r, hr, hname, -⟩ := hb
  refine ⟨?_, fun i hi => ?_⟩
  · show Lexeme.isWord b.register.name
    rw [← hname]
    exact h.words r hr
  · cases hi
    exact Int.natCast_nonneg _

theorem isDeclared_toRef (h : Register.AreWritable regs) (hb : b.IsIn regs kind) (k : RefKind) :
    (b.toRef k).toSource.IsDeclared (Action.declarations kind regs) := by
  have hwritable := isWritable_toRef h hb k
  obtain ⟨-, r, hr, hname, hkind, hindex⟩ := hb
  refine ⟨r.size, ?_, fun i hi => ?_⟩
  · show (Action.declarations kind regs).lookup b.register.name = _
    rw [← hname]
    exact Register.lookup_declarations h.names hr hkind
  · rw [Ref.indexValue_toSource hwritable] at hi
    cases hi
    exact Int.ofNat_lt.mpr hindex

theorem isOperand_toRef (h : Register.AreWritable regs) (hp : p.HasRegisters regs)
    (hb : b.IsIn regs .quantum) : (b.toRef .quantum).IsOperand p none .quantum := by
  refine ⟨rfl, isWritable_toRef h hb _, ?_⟩
  show (b.toRef .quantum).toSource.IsDeclared p.qregs
  rw [hp.quantum]
  exact isDeclared_toRef h hb _

theorem isClassical_toRef (h : Register.AreWritable regs) (hp : p.HasRegisters regs)
    (hb : b.IsIn regs .classical) : (b.toRef .classical).IsClassical p := by
  refine ⟨rfl, isWritable_toRef h hb _, ?_⟩
  rw [hp.classical]
  exact isDeclared_toRef h hb _

end Bit

/-! ## Conditions -/

/-- Fewer keywords leave more names. -/
theorem Source.IsName.mono {keywords keywords' : List Keyword} (hsubset : keywords' ⊆ keywords) {name : String}
    (h : IsName keywords name) : IsName keywords' name := by
  refine ⟨h.1, find?_eq_none.mpr fun k hk => ?_⟩
  exact find?_eq_none.mp h.2 k (hsubset hk)

theorem Guard.keywords_subset (guard : Option Guard) : Guard.keywords guard ⊆ Keyword.statements := by
  cases guard with
  | none => exact List.Subset.refl _
  | some g =>
    show Context.guarded.keywords ⊆ Keyword.statements
    decide

/-- A condition on a classical register that can hold the value. -/
def Condition.Fits (regs : List Register) (condition : Option Condition) : Prop :=
  ∀ r v, condition = some (r, v) → r ∈ regs ∧ r.kind = .classical ∧ r.fits v

/-- A statement with a guard, if there is one. -/
def Node.under (guard : Option Guard) (n : Node) : Node :=
  match guard with
  | none => n
  | some g => n.withGuard g

section

variable {condition : Option Condition}

theorem guardText_guardOf (condition : Option Condition) (text : String) :
    guardText (guardOf condition) text = conditionText condition text := by
  cases condition <;> rfl

/-- A condition is found again among the registers of a program. -/
theorem Condition.Fits.mapM_guardOf (h : Condition.Fits regs condition) (hregs : Register.AreWritable regs) :
    (guardOf condition).mapM (Guard.condition? (Register.sorted regs)) = some condition := by
  cases condition with
  | none => rfl
  | some c =>
    obtain ⟨r, v⟩ := c
    have hr : r ∈ Register.sorted regs := hregs.perm_sorted.mem_iff.mpr (h r v rfl).1
    have hfind : Guard.condition? (Register.sorted regs) ⟨r.name, v⟩ = some (r, v) := by
      rw [Guard.condition?, Circuit.find?_register hregs.nodup_sorted hr]
      rfl
    show some <$> Guard.condition? (Register.sorted regs) ⟨r.name, v⟩ = _
    rw [hfind]
    rfl

theorem Program.fits_of_fits {v : Int} (h : r.fits v) : Program.fits v r.size := by
  unfold Register.fits at h
  unfold Program.fits
  rw [Bool.and_eq_true, Bool.or_eq_true, decide_eq_true_eq, beq_iff_eq, decide_eq_true_eq] at h
  rw [Bool.or_eq_true, decide_eq_true_eq, decide_eq_true_eq]
  omega

/-- What can be written behind the guard of a condition can be written under the condition. -/
theorem Condition.Fits.exists_restates (h : Condition.Fits regs condition)
    (hregs : Register.AreWritable regs) (hp : p.HasRegisters regs) {n : Node} {a : Source.Action}
    (ha : a.Restates lib p (Guard.keywords (guardOf condition)) n)
    (hshort : ∀ g ∈ guardOf condition, Text.isShort g.value) : ∃ s : Source.Statement,
    s.Restates lib p (n.under (guardOf condition)) := by
  cases condition with
  | none => exact ⟨_, ha.statement⟩
  | some c =>
    obtain ⟨r, v⟩ := c
    obtain ⟨hr, hkind, hv⟩ := h r v rfl
    have hlookup : p.cregs.lookup r.name = some (r.size : Int) := by
      rw [hp.classical]
      exact Register.lookup_declarations hregs.names hr hkind
    exact ⟨_, @Source.Action.Restates.guarded lib p a n ha ⟨r.name, v⟩ r.size (hregs.words r hr)
      ((Register.fits_iff r v).mp hv).1 (hshort _ rfl) hlookup (Program.fits_of_fits hv)⟩

end

/-! ## Calls on bits -/

section

variable {x : Instruction} {name : String}

/-- The operands and the condition of an instruction are those of a statement on qubits. -/
structure Instruction.Calls (regs : List Register) (x : Instruction) : Prop where
  qubits : ∀ b ∈ x.allBits, b.IsIn regs .quantum
  some_qubit : x.allBits ≠ []
  distinct : Bit.distinct x.allBits
  condition : Condition.Fits regs x.condition

theorem callNode_eq (name : String) (x : Instruction) : callNode name x =
    (Node.call name .origin (paramTerms x.params) (x.allBits.map (bitRef .quantum)) none).under
      (guardOf x.condition) := by
  unfold callNode Node.under
  cases guardOf x.condition <;> rfl

theorem isNumeric_paramTerms (params : List Float) : ∀ t ∈ paramTerms params, ∃ d, t = .value d := by
  intro t ht
  obtain ⟨v, -, rfl⟩ := mem_map.mp ht
  exact ⟨_, rfl⟩

theorem map_canonical_paramTerms (params : List Float) :
    (paramTerms params).map Term.canonical = paramTerms (params.map Decimal.plain) := by
  rw [paramTerms, paramTerms, map_map, map_map]
  rfl

theorem mapM_resolve_paramTerms (env : Tree.Env) (params : List Float) :
    (paramTerms params).mapM (Term.resolve env) = .ok params := by
  rw [paramTerms, mapM_eq_ok, forall₂_map_left_iff, forall₂_same]
  exact fun _ _ => rfl

theorem exists_restates_paramTerms (scope : Option Program.GateScope) {params : List Float}
    (h : ∀ p ∈ params, p.isFinite) : ∃ es, Forall₂ (Term.Restates scope) (paramTerms params) es := by
  refine Outcome.exists_forall₂ fun t ht => ?_
  obtain ⟨v, hv, rfl⟩ := mem_map.mp ht
  exact ⟨_, Term.restates_real scope (h v hv)⟩

theorem mapM_paramText_paramTerms (params : List Float) :
    (paramTerms params).mapM Term.paramText = params.mapM Term.realText := by
  rw [paramTerms, mapM_map]
  rfl

theorem mapM_render_bitRef (kind : RefKind) (bits : List Bit) :
    (bits.map (bitRef kind)).mapM Term.render = .ok (bits.map Bit.text) := by
  rw [mapM_eq_ok, forall₂_map_left_iff, forall₂_map_right_iff, forall₂_same]
  exact fun b _ => congrArg Except.ok (b.text_toRef kind)

theorem statementLine_callNode (name : String) (x : Instruction) : (callNode name x).statementLine =
    callOnBits name x.params x.allBits >>= fun t => conditionText x.condition t >>= fun t => pure (t ++ ";") := by
  rw [callNode, Node.statementLine, Node.render, callText, mapM_render_bitRef, mapM_paramText_paramTerms, callOnBits]
  cases x.params.mapM Term.realText with
  | error e => rfl
  | ok texts =>
    exact congrArg (fun t : Except Fault String => t >>= fun t => pure (t ++ ";")) (guardText_guardOf x.condition _)

theorem statementLine_barrier (bits : List Bit) : (Node.barrier .origin (bits.map (bitRef .quantum))).statementLine =
    .ok ("barrier " ++ Text.join "," (bits.map Bit.text) ++ ";") := by
  rw [Node.statementLine, Node.render, mapM_render_bitRef]
  rfl

theorem statementLine_measure (q c : Bit) (condition : Option Condition) :
    (Node.measure (bitRef .quantum q) (bitRef .classical c) .origin (guardOf condition)).statementLine =
      conditionText condition ("measure " ++ Text.join " -> " ([q, c].map Bit.text)) >>= fun t => pure (t ++ ";") := by
  show (guardText _ ("measure " ++ (q.toRef .quantum).text ++ " -> " ++ (c.toRef .classical).text) >>= _) = _
  rw [guardText_guardOf, Bit.text_toRef, Bit.text_toRef, @String.append_assoc "measure ",
    @String.append_assoc "measure "]
  rfl

/-- A call of a known gate on bits can be written. -/
theorem Instruction.Calls.exists_restates (h : x.Calls regs) (hregs : Register.AreWritable regs)
    (hp : p.HasRegisters regs) (hfinite : ∀ p ∈ x.params, p.isFinite)
    (hname : Source.IsName (Guard.keywords (guardOf x.condition)) name)
    (hknown : IsKnown lib p.gates name) (hshort : ∀ g ∈ guardOf x.condition, Text.isShort g.value) :
    ∃ s : Source.Statement, s.Restates lib p (callNode name x) := by
  obtain ⟨es, hes⟩ := exists_restates_paramTerms none hfinite
  rw [callNode_eq, Bit.map_bitRef]
  have hne : x.allBits.map (Bit.toRef .quantum) ≠ [] := by
    rw [Ne, map_eq_nil_iff]
    exact h.some_qubit
  have hrefs : ∀ r ∈ x.allBits.map (Bit.toRef .quantum), r.IsOperand p none .quantum := by
    intro r hr
    obtain ⟨b, hb, rfl⟩ := mem_map.mp hr
    exact b.isOperand_toRef hregs hp (h.qubits b hb)
  exact h.condition.exists_restates hregs hp (Source.Operation.restates_call hname hknown hes hne hrefs).action hshort

theorem effect?_callNode (name : String) (x : Instruction) : (callNode name x).canonical.effect? =
    some (.apply name (paramTerms (x.params.map Decimal.plain)) (x.allBits.map Bit.target)) := by
  rw [callNode, Node.canonical, Node.change, Bit.map_canonical_bitRef, map_canonical_paramTerms, Node.effect?,
    Bit.mapM_target?_bitRef (by decide)]
  rfl

/-- What a call on bits comes to is what the gate comes to on the same bits. -/
theorem Instruction.Calls.expansion?_callNode (h : x.Calls regs) (hregs : Register.AreWritable regs)
    {home : CircuitId} {gates : List GateDef} {ys : List Instruction}
    (hys : Program.expansion? lib home gates.reverse name (x.params.map Decimal.plain)
      (x.allBits.map (Bit.moved (Register.sorted regs))) = some ys) :
    (callNode name x).canonical.expansion? lib home (Register.sorted regs) gates =
      some (ys.map (Instruction.under x.condition)) := by
  have hbits := Bit.mapM_operand?_target hregs.nodup_sorted fun b hb =>
    (h.qubits b hb).mono hregs.perm_sorted.symm.subset
  have hparts : [x.allBits.map (Bit.moved (Register.sorted regs))].mapM
      (Program.expansion? lib home gates.reverse name (x.params.map Decimal.plain)) = some [ys] :=
    mapM_eq_some.mpr (.cons hys .nil)
  refine Option.bind_eq_some_iff.mpr ⟨_, effect?_callNode name x, Option.bind_eq_some_iff.mpr
    ⟨x.condition, h.condition.mapM_guardOf hregs, Option.bind_eq_some_iff.mpr
      ⟨x.params.map Decimal.plain, by rw [mapM_resolve_paramTerms]; rfl, Option.bind_eq_some_iff.mpr
        ⟨_, hbits, Option.bind_eq_some_iff.mpr ⟨_, rows?_bits _, Option.bind_eq_some_iff.mpr ⟨_, hparts, ?_⟩⟩⟩⟩⟩⟩
  rw [flatten_singleton]

end

end QasmCircuit
