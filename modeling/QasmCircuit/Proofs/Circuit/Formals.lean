import QasmCircuit.Circuit.Declaration
import QasmCircuit.Proofs.Lowering.Operands

/-!
# Formal arguments

The formal arguments of a gate are numbered, first those for its controls and then those for its arguments. Since the
bits are different ones, each of them has a name of its own (`formalArgs_names`), and looking the name up gives the bit
back (`FormalArgs.Names.lookup_zip`).
-/

namespace QasmCircuit

open Outcome List

/-! ## Words with numbers -/

namespace Lexeme

/-- A word goes on with letters, digits and underscores. -/
theorem isWord_append {s t : String} (hs : isWord s) (ht : t.toList.all isWordChar) : isWord (s ++ t) := by
  obtain ⟨c, cs, hchars, hc, hcs⟩ := isWord_iff.mp hs
  refine isWord_iff.mpr ⟨c, cs ++ t.toList, by rw [String.toList_append, hchars, cons_append], hc, ?_⟩
  rw [all_append, hcs, ht, Bool.and_self]

theorem all_isWordChar_toString (n : Nat) : (toString n).toList.all isWordChar := by
  have hinteger := (isInteger_iff.mp (Decimal.isInteger_toString n)).2
  refine all_eq_true.mpr fun c hc => ?_
  rw [isWordChar, Char.isAlphanum, hinteger c hc]
  simp

end Lexeme

theorem toString_injective {m n : Nat} (h : toString m = toString n) : m = n := by
  rw [← Decimal.digitsValue_toString m, h, Decimal.digitsValue_toString]

theorem underscore_mem_candidateName (base : String) {k : Nat} (hk : k ≠ 0) : '_' ∈ (candidateName base k).toList := by
  rw [candidateName, if_neg hk, String.toList_append, String.toList_append]
  exact mem_append_left _ (mem_append_right _ mem_cons_self)

/-- Names made of a letter and a number, in order. -/
def numbered (letter : String) (count : Nat) : List String := (List.range count).map fun k => letter ++ toString k

theorem nodup_numbered (letter : String) (count : Nat) : (numbered letter count).Nodup := by
  refine nodup_range.map fun m n h => toString_injective ?_
  rw [← String.toList_inj] at h ⊢
  rw [String.toList_append, String.toList_append] at h
  exact append_cancel_left h

theorem isWord_of_mem_numbered {letter : String} (h : Lexeme.isWord letter) {count : Nat} :
    ∀ n ∈ numbered letter count, Lexeme.isWord n := by
  intro n hn
  obtain ⟨k, -, rfl⟩ := mem_map.mp hn
  exact Lexeme.isWord_append h (Lexeme.all_isWordChar_toString k)

/-- Names with different letters are different. -/
theorem disjoint_numbered (m n : Nat) : (numbered "c" m).Disjoint (numbered "a" n) := by
  intro name hc ha
  obtain ⟨j, -, rfl⟩ := mem_map.mp hc
  obtain ⟨k, -, heq⟩ := mem_map.mp ha
  have hchars := congrArg String.toList heq
  rw [String.toList_append, String.toList_append] at hchars
  exact absurd (List.cons.inj hchars).1 (by decide)

/-! ## Names of bits -/

namespace FormalArgs

variable {formals : FormalArgs} {bits : List Bit} {b : Bit} {name : String}

theorem insert_of_forall_ne (h : b.key ∉ formals.map fun f => f.1.key) (name : String) :
    insert formals b name = formals ++ [(b, name)] := by
  induction formals with
  | nil => rfl
  | cons f rest ih =>
    obtain ⟨b', n⟩ := f
    rw [map_cons, mem_cons, not_or] at h
    have hne : b'.same b = false := beq_eq_false_iff_ne.mpr (Ne.symm h.1)
    rw [insert, hne, ih h.2]
    rfl

theorem foldl_insert (letter : String) (h : ((formals.map fun f => f.1.key) ++ bits.map Bit.key).Nodup) (start : Nat) :
    (bits.zipIdx start).foldl (fun acc f => insert acc f.1 (letter ++ toString f.2)) formals =
      formals ++ (bits.zipIdx start).map fun f => (f.1, letter ++ toString f.2) := by
  induction bits generalizing formals start with
  | nil => exact (append_nil formals).symm
  | cons b bits ih =>
    have hfresh : b.key ∉ formals.map fun f => f.1.key := by
      intro hmem
      exact (nodup_append.mp h).2.2 _ hmem _ mem_cons_self rfl
    have hrest : (((formals ++ [(b, letter ++ toString start)]).map fun f => f.1.key) ++ bits.map Bit.key).Nodup := by
      rw [map_append, append_assoc]
      exact h
    rw [zipIdx_cons, foldl_cons, insert_of_forall_ne hfresh, ih hrest, map_cons, append_assoc]
    rfl

/-- Some bits have names of their own. -/
structure Names (formals : FormalArgs) (bits : List Bit) : Prop where
  bits : formals.map (·.1) = bits
  names : (formals.map (·.2)).Nodup
  words : ∀ n ∈ formals.map (·.2), Lexeme.isWord n

theorem exists_of_nameOf? (h : formals.nameOf? b = some name) : ∃ f ∈ formals, f.1.key = b.key ∧ f.2 = name := by
  obtain ⟨f, hf, rfl⟩ := Option.map_eq_some_iff.mp h
  have hsame := @find?_some _ (fun f : Bit × String => f.1.same b) f formals hf
  exact ⟨f, mem_of_find?_eq_some hf, beq_iff_eq.mp hsame, rfl⟩

theorem mem_of_nameOf? (h : formals.nameOf? b = some name) : name ∈ formals.map (·.2) := by
  obtain ⟨f, hf, -, rfl⟩ := exists_of_nameOf? h
  exact mem_map_of_mem hf

namespace Names

section

variable (h : formals.Names bits)

include h

theorem length_eq : (formals.map (·.2)).length = bits.length := by
  rw [← h.bits, length_map, length_map]

/-- A name that is bound to a bit stands for it, wherever the bit may be. -/
theorem lookup_zip {place : Bit → Bit} (hplace : ∀ a ∈ bits, a.key = b.key → place a = place b)
    (hb : formals.nameOf? b = some name) : ((formals.map (·.2)).zip (bits.map place)).lookup name = some (place b) := by
  obtain ⟨f, hf, hkey, rfl⟩ := exists_of_nameOf? hb
  have hzip : (formals.map (·.2)).zip (bits.map place) = formals.map fun f => (f.2, place f.1) := by
    rw [← h.bits, map_map, zip_map']
    rfl
  refine lookup_of_mem ?_ ?_
  · rw [hzip, map_map]
    exact h.names
  · rw [hzip, ← hplace f.1 (h.bits ▸ mem_map_of_mem hf) hkey]
    exact mem_map.mpr ⟨f, hf, rfl⟩

/-- Bits with the same name are the same. -/
theorem key_eq {a : Bit} (ha : formals.nameOf? a = some name) (hb : formals.nameOf? b = some name) : a.key = b.key := by
  obtain ⟨f, hf, hkey, hname⟩ := exists_of_nameOf? ha
  obtain ⟨f', hf', hkey', hname'⟩ := exists_of_nameOf? hb
  have hsame := inj_on_of_nodup_map h.names hf hf' (hname.trans hname'.symm)
  rw [← hkey, ← hkey', hsame]

/-- Different bits have different names. -/
theorem nodup_of_forall₂ {bs : List Bit} {names : List String}
    (hnames : Forall₂ (fun b n => formals.nameOf? b = some n) bs names) (hkeys : (bs.map Bit.key).Nodup) :
    names.Nodup := by
  induction hnames with
  | nil => exact nodup_nil
  | @cons b n bs ns hb hrest ih =>
    rw [map_cons, nodup_cons] at hkeys
    refine nodup_cons.mpr ⟨fun hmem => ?_, ih hkeys.2⟩
    obtain ⟨b', hb', hname⟩ := exists_of_forall₂ hrest n hmem
    exact hkeys.1 (h.key_eq hb hname ▸ mem_map_of_mem hb')

end

end Names

end FormalArgs

/-- The formal arguments of a gate name its bits, the controlling ones first. -/
theorem formalArgs_names {x : Instruction} (h : Bit.distinct x.allBits) : (formalArgs x).Names x.allBits := by
  rw [Bit.distinct_iff, Instruction.allBits, map_append] at h
  have hcontrols : FormalArgs.number "c" x.controlBits [] = x.controlBits.zipIdx.map fun f =>
    (f.1, "c" ++ toString f.2) :=
    @FormalArgs.foldl_insert [] x.controlBits "c" (nodup_append.mp h).1 0
  have hfst : ∀ (letter : String) (bits : List Bit),
      (bits.zipIdx.map fun f => (f.1, letter ++ toString f.2)).map Prod.fst = bits := by
    intro letter bits
    rw [map_map]
    exact zipIdx_map_fst 0 bits
  have hsnd : ∀ (letter : String) (bits : List Bit),
      (bits.zipIdx.map fun f => (f.1, letter ++ toString f.2)).map Prod.snd = numbered letter bits.length := by
    intro letter bits
    rw [numbered, range_eq_range', ← zipIdx_map_snd 0 bits, map_map, map_map]
    rfl
  have hkeys : ((x.controlBits.zipIdx.map fun f => (f.1, "c" ++ toString f.2)).map fun f => f.1.key) =
      x.controlBits.map Bit.key := by
    have hmap := congrArg (List.map Bit.key) (hfst "c" x.controlBits)
    rw [map_map] at hmap
    exact hmap
  have hformals : formalArgs x = (x.controlBits.zipIdx.map fun f => (f.1, "c" ++ toString f.2)) ++
      x.args.zipIdx.map fun f => (f.1, "a" ++ toString f.2) := by
    rw [formalArgs, hcontrols]
    exact FormalArgs.foldl_insert "a" (by rw [hkeys]; exact h) 0
  rw [hformals]
  refine ⟨?_, ?_, ?_⟩
  · rw [map_append, hfst, hfst]
    rfl
  · rw [map_append, hsnd, hsnd]
    exact (nodup_numbered _ _).append (nodup_numbered _ _) (disjoint_numbered _ _)
  · rw [map_append, hsnd, hsnd]
    exact forall_mem_append.mpr ⟨isWord_of_mem_numbered (by decide), isWord_of_mem_numbered (by decide)⟩

/-! ## Operands in the body of a gate -/

def formalRef (name : String) : Ref := ⟨.quantum, name, none, .origin⟩

/-- The operands of a statement in a body are the names of its bits. -/
theorem Action.formalOperands_eq_ok {gate : String} {formals : FormalArgs} {bits : List Bit} {operands : List Term}
    (h : formalOperands gate formals bits = .ok operands) :
    ∃ names, Forall₂ (fun b n => formals.nameOf? b = some n) bits names ∧
      operands = (names.map formalRef).map .ref := by
  unfold formalOperands at h
  split at h
  · next hnone =>
    obtain rfl := Except.ok.inj h
    refine ⟨bits.map fun b => (formals.nameOf? b).getD "", ?_, ?_⟩
    · rw [forall₂_map_right_iff, forall₂_same]
      intro b hb
      have hsome := filter_eq_nil_iff.mp hnone b hb
      cases hname : formals.nameOf? b with
      | none =>
        rw [hname] at hsome
        exact absurd rfl hsome
      | some n => rfl
    · rw [map_map, map_map]
      rfl
  · cases h

end QasmCircuit
