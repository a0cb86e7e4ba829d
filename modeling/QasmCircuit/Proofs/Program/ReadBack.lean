import QasmCircuit.Proofs.Program.Readable

/-!
# Reading undoes writing

Every program that was read from a text is readable: each item keeps the program so (`Readable.extends`), and
so do all of them. Its text, if it has one, therefore reads as the same program, and writing that program
gives the same text again.

> `Program.parse_render_of_parse`: reading the text of a program that was read gives the program back.
-/

namespace QasmCircuit.Program

open Source List

variable {lib : Library} {p q : Program} {name text : String}

theorem readable_empty {version : String} (h : Lexeme.isNumber version) : (empty version).Readable lib := by
  refine ⟨h, ?_, ?_, nodup_nil, ?_, ?_⟩
  · exact forall_mem_nil _
  · exact forall_mem_nil _
  · intro before g after hsplit
    exact absurd hsplit (by simp [empty])
  · exact forall_mem_nil _

theorem not_mem_of_lookup {regs : List (String × Int)}
    (h : regs.lookup name = none) : name ∉ regs.map Prod.fst := by
  intro hmem
  obtain ⟨r, hr, rfl⟩ := List.mem_map.mp hmem
  rw [lookup_eq_none_iff] at h
  exact absurd (h r hr) (by simp)

/-- A register under a new name may stand anywhere among the others. -/
theorem Readable.insert {rs rs' : List (String × Int)} {r : String × Int} (hperm : rs'.Perm (r :: rs))
    (h : ∀ r ∈ rs, IsRegister r) (hnames : (rs.map Prod.fst).Nodup) (hr : IsRegister r) (hnew : r.1 ∉ rs.map Prod.fst) :
    (∀ r ∈ rs', IsRegister r) ∧ (rs'.map Prod.fst).Nodup := by
  refine ⟨fun x hx => ?_, (hperm.map Prod.fst).nodup_iff.mpr (List.nodup_cons.mpr ⟨hnew, hnames⟩)⟩
  rcases List.mem_cons.mp (hperm.mem_iff.mp hx) with rfl | hx
  · exact hr
  · exact h x hx

theorem Readable.fresh_name (hq : p.qregs.lookup name = none)
    (hc : p.cregs.lookup name = none) : name ∉ (p.qregs ++ p.cregs).map Prod.fst := by
  rw [map_append, mem_append]
  rintro (hmem | hmem)
  · exact not_mem_of_lookup hq hmem
  · exact not_mem_of_lookup hc hmem

theorem Readable.extends (h : p.Readable lib) {i : Item} (hi : i.Spelled)
    (hq : i.Extends lib p q) : q.Readable lib := by
  have hbody : ∀ n ∈ p.body, ∀ line, n.statementLine = .ok line → ∃ s : Statement, s.Restates lib q n := by
    intro n hn line hline
    obtain ⟨s, hs⟩ := h.body n hn line hline
    exact ⟨s, hs.mono (Within.of_extends hq)⟩
  cases hq with
  | includes hpath =>
    obtain ⟨s, hs, hquoted⟩ := hi
    have hpaths := congrArg unquoted (hpath.symm.trans hquoted)
    rw [unquoted_quoted, unquoted_quoted] at hpaths
    exact ⟨h.version, Outcome.forall_mem_concat h.includes (hpaths ▸ hs), h.registers, h.names, h.gates, hbody⟩
  | @qreg _ name size hfree hfree' hpos =>
    have hperm (r : String × Int) : (p.qregs ++ [r] ++ p.cregs).Perm (r :: (p.qregs ++ p.cregs)) := by
      rw [append_assoc]
      exact perm_middle
    obtain ⟨hregs, hnames⟩ := insert (hperm (name.text, size.value)) h.registers h.names
      ⟨hi.1, Int.natCast_pos.mpr hpos⟩ (fresh_name hfree hfree')
    exact ⟨h.version, h.includes, hregs, hnames, h.gates, hbody⟩
  | @creg _ name size hfree hfree' hpos =>
    have hperm (r : String × Int) : (p.qregs ++ (p.cregs ++ [r])).Perm (r :: (p.qregs ++ p.cregs)) := by
      rw [← append_assoc]
      exact perm_append_singleton _ _
    obtain ⟨hregs, hnames⟩ := insert (hperm (name.text, size.value)) h.registers h.names
      ⟨hi.1, Int.natCast_pos.mpr hpos⟩ (fresh_name hfree hfree')
    exact ⟨h.version, h.includes, hregs, hnames, h.gates, hbody⟩
  | gate hg =>
    exact ⟨h.version, h.includes, h.registers, h.names,
      forall_split_snoc h.gates fun text htext => hg.exists_restates hi htext, hbody⟩
  | statement hs =>
    refine ⟨h.version, h.includes, h.registers, h.names, h.gates, Outcome.forall_mem_concat hbody fun line hline => ?_⟩
    obtain ⟨s', hs'⟩ := hs.exists_restates hi hline
    exact ⟨s', hs'.mono (within_addBody p _)⟩

theorem Readable.items (h : p.Readable lib) {items : List Item}
    (hitems : ∀ i ∈ items, i.Spelled) (hq : ItemsExtend lib p items q) : q.Readable lib := by
  induction hq with
  | nil => exact h
  | cons hi _ ih =>
    rw [forall_mem_cons] at hitems
    exact ih (h.extends hitems.1 hi) hitems.2

/-- Every program that was read is readable. -/
theorem readable_of_parse (h : parse lib text = .ok p) : p.Readable lib := by
  obtain ⟨s, hs, hp, -⟩ := parse_iff.mp h
  have hspelled := Source.spelled_of_parse hs
  exact (readable_empty hspelled.1).items hspelled.2 ((ofTree_iff hspelled).mp hp)

/-- The sizes of the registers and the values of the guards are short. -/
def IsShort (p : Program) : Prop :=
  (∀ r ∈ p.qregs ++ p.cregs, Text.isShort r.2) ∧ ∀ n ∈ p.body, ∀ g ∈ guardOf? n, Text.isShort g.value

/-- The integers of a program that was read are short. -/
theorem isShort_of_parse (h : parse lib text = .ok p) : p.IsShort := by
  obtain ⟨-, -, -, hshort⟩ := parse_iff.mp h
  rw [hasShortIntegers, Bool.and_eq_true, all_eq_true, all_eq_true] at hshort
  exact ⟨hshort.1, fun n hn => (Option.all_eq_true ..).mp (hshort.2 n hn)⟩

/-- Reading undoes writing: the text of a program that was read from some text reads as the same program,
up to places and signs of zeros, and writing it again changes nothing. -/
theorem parse_render_of_parse {lib : Library} {text written : String} {p : Program}
    (hparse : parse lib text = .ok p) (hrender : p.render = .ok written) :
    ∃ q, parse lib written = .ok q ∧ q.canonical = p.canonical ∧ q.render = .ok written := by
  obtain ⟨q, hq, hreads⟩ := (readable_of_parse hparse).parse_render (isShort_of_parse hparse).1 hrender
  have hcanonical := canonical_eq_of_unplaced hreads
  refine ⟨q, hq, hcanonical, ?_⟩
  rw [← render_canonical, hcanonical, render_canonical, hrender]

/-- Names that are keywords elsewhere, declarations behind each other, a sign of zero and an index with a zero
in front. -/
theorem parse_render_of_parse_keyword_names :
    ∃ p,
      parse ⟨[]⟩ ("OPENQASM 2.0; gate g(t) a,b\x7bU(-(t),2*pi,-0) a; barrier a,b;\x7d creg if[2]; qreg pi[2];" ++
        "if(if==3)g(1)pi[0],pi[01];measure pi->if;") = .ok p ∧
      p.render = .ok ("OPENQASM 2.0;\nqreg pi[2];\ncreg if[2];\ngate g(t) a,b\n\x7b\n" ++
        "  U(-t,6.283185307179586,0.0) a;\n  barrier a,b;\n\x7d\nif(if==3) g(1.0) pi[0],pi[1];\n" ++
        "measure pi -> if;\n") ∧
      ∃ q,
        parse ⟨[]⟩ ("OPENQASM 2.0;\nqreg pi[2];\ncreg if[2];\ngate g(t) a,b\n\x7b\n" ++
          "  U(-t,6.283185307179586,0.0) a;\n  barrier a,b;\n\x7d\nif(if==3) g(1.0) pi[0],pi[1];\n" ++
          "measure pi -> if;\n") = .ok q ∧
        q.canonical = p.canonical ∧
        q.render = .ok ("OPENQASM 2.0;\nqreg pi[2];\ncreg if[2];\ngate g(t) a,b\n\x7b\n" ++
          "  U(-t,6.283185307179586,0.0) a;\n  barrier a,b;\n\x7d\nif(if==3) g(1.0) pi[0],pi[1];\n" ++
          "measure pi -> if;\n") := by
  have hwritten :
      (parse ⟨[]⟩ ("OPENQASM 2.0; gate g(t) a,b\x7bU(-(t),2*pi,-0) a; barrier a,b;\x7d creg if[2]; qreg pi[2];" ++
        "if(if==3)g(1)pi[0],pi[01];measure pi->if;") >>= render).toOption =
      some ("OPENQASM 2.0;\nqreg pi[2];\ncreg if[2];\ngate g(t) a,b\n\x7b\n" ++
        "  U(-t,6.283185307179586,0.0) a;\n  barrier a,b;\n\x7d\nif(if==3) g(1.0) pi[0],pi[1];\n" ++
        "measure pi -> if;\n") := by
    decide +kernel
  obtain ⟨p, hp, hrender⟩ := Outcome.bind_eq_ok.mp (Outcome.toOption_eq_some.mp hwritten)
  exact ⟨p, hp, hrender, parse_render_of_parse hp hrender⟩

end QasmCircuit.Program
