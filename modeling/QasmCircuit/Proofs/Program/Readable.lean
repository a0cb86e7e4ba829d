import QasmCircuit.Proofs.Program.Restate
import QasmCircuit.Proofs.Source.ReadBack
import QasmCircuit.Proofs.Source.Sound

/-!
# Programs that can be read back

A program is readable if each of its parts can be written as a source that resolves to it, in the program
as it is declared up to there. The text of a readable program reads as the program itself, up to places and
signs of zeros: the text is that of a source whose items build up the program again, first includes and
registers, then gates, then statements.

> `Program.Readable.parse_render`: the text of a readable program reads back.
-/

namespace QasmCircuit

open Source Outcome List
open Program (GateScope)

variable {lib : Library} {gates : List GateDef} {g : GateDef} {p q : Program} {lines : List String} {α : Type}
  {line : String}

/-! ## Gates -/

/-- A declaration can be written as a source declaration that declares it, with some gates before it. -/
structure GateDef.Restates (lib : Library) (gates : List GateDef) (g : GateDef) (d : Declaration) : Prop where
  spelled : d.Spelled
  render_eq : g.render = .ok d.text
  reads : ∃ g', d.Declares lib gates g' ∧ g'.unplaced = g.canonical

def Source.wordsOf (names : List String) : List Word := names.map fun n => ⟨n, .origin⟩

/-- Names of parameters in parentheses, unless there are none. -/
def Source.formalsOf (names : List String) : Option Formals :=
  if names = [] then none else some ⟨.origin, wordsOf names⟩

namespace GateDef

theorem map_text_wordsOf (names : List String) : (wordsOf names).map Word.text = names := by
  rw [wordsOf, map_map]
  exact map_id names

theorem formalNames_formalsOf (names : List String) : Program.formalNames (formalsOf names) = names := by
  unfold formalsOf
  split
  · next h => rw [h]; rfl
  · exact map_text_wordsOf names

theorem nameWithParams_formalsOf (name : String) (names : List String) :
    nameWithParams name names = name ++ ((formalsOf names).map Formals.text).getD "" := by
  unfold nameWithParams formalsOf
  cases names with
  | nil => exact String.append_empty.symm
  | cons n names =>
    rw [if_neg (by simp), if_neg (cons_ne_nil n names)]
    show _ = name ++ ("(" ++ Text.join "," ((wordsOf (n :: names)).map Word.text) ++ ")")
    rw [map_text_wordsOf, ← String.append_assoc, ← String.append_assoc]

/-- What the names of a declaration have to be. -/
structure IsNamed (g : GateDef) : Prop where
  name : Lexeme.isWord g.name
  params : ∀ n ∈ g.params, Lexeme.isWord n
  args : ∀ n ∈ g.args, Lexeme.isWord n
  args_ne : g.args ≠ []
  params_once : Program.repeats g.params = false
  args_once : Program.repeats g.args = false

/-- The names that the body of a declaration can use. -/
def scope (g : GateDef) : GateScope := ⟨g.name, g.params, g.args⟩

/-- The source of a declaration with some source of its body. -/
def toSource (g : GateDef) (body : List BodyStatement) : Declaration :=
  .gate .origin ⟨g.name, .origin⟩ (formalsOf g.params) (wordsOf g.args) .origin body

section

variable {body : List BodyStatement}

theorem spelled_toSource (h : g.IsNamed) (hbody : BodySpelled Context.body.keywords body) :
    (g.toSource body).Spelled := by
  have hwords : ∀ {names : List String}, (∀ n ∈ names, Lexeme.isWord n) →
      ∀ w ∈ wordsOf names, Lexeme.isWord w.text := by
    intro names hnames w hw
    obtain ⟨n, hn, rfl⟩ := mem_map.mp hw
    exact hnames n hn
  refine ⟨h.name, ?_, ⟨?_, hwords h.args⟩, hbody⟩
  · intro ps hps
    unfold formalsOf at hps
    split at hps
    · cases hps
    · cases hps
      exact hwords h.params
  · rw [wordsOf, Ne, map_eq_nil_iff]
    exact h.args_ne

theorem render_eq_toSource (hlines : Node.bodyLines g.body = .ok (bodyText body)) :
    g.render = .ok (g.toSource body).text := by
  rw [GateDef.render, GateDef.toNode, Node.render, hlines, toSource, Declaration.text, map_text_wordsOf, gateHead,
    nameWithParams_formalsOf, ← String.append_assoc]
  rfl

/-- A declaration whose body can be written can be written. -/
theorem restates (h : g.IsNamed) (hfresh : Program.IsFresh lib gates g.name)
    (hbody : BodyRestates lib gates g.scope Context.body.keywords body g.body) :
    g.Restates lib gates (g.toSource body) := by
  obtain ⟨nodes, hnodes, hreads⟩ := hbody.reads
  have hparams : Program.repeats (Program.formalNames (formalsOf g.params)) = false := by
    rw [formalNames_formalsOf]
    exact h.params_once
  have hargs : Program.repeats ((wordsOf g.args).map Word.text) = false := by
    rw [map_text_wordsOf]
    exact h.args_once
  have hresolves : Program.BodyResolves lib gates
      ⟨g.name, Program.formalNames (formalsOf g.params), (wordsOf g.args).map Word.text⟩ body nodes := by
    rw [formalNames_formalsOf, map_text_wordsOf]
    exact hnodes
  refine ⟨spelled_toSource h hbody.spelled, render_eq_toSource hbody.bodyLines_eq, _,
    .gate hfresh hparams hargs hresolves, ?_⟩
  simp only [GateDef.unplaced, GateDef.canonical, hreads, formalNames_formalsOf, map_text_wordsOf]

end

end GateDef

variable {d : Declaration} {text : String}

/-- A declaration of a gate with a text can be written as this text. -/
theorem Source.Declaration.Declares.exists_restates
    (hd : d.Spelled) (h : d.Declares lib gates g) (htext : g.render = .ok text) :
    ∃ d', g.Restates lib gates d' := by
  cases h with
  | gate hfresh hparams hargs hbody =>
    rename_i position name params args bodyPosition body nodes
    obtain ⟨hname, hformals, ⟨hne, hwords⟩, hstatements⟩ := hd
    obtain ⟨lines, hlines, -⟩ := bind_eq_ok.mp htext
    obtain ⟨body', hrestates⟩ := exists_bodyRestates hstatements hbody hlines
    refine ⟨_, GateDef.restates ⟨hname, ?_, ?_, ?_, hparams, hargs⟩ hfresh hrestates⟩
    · cases params with
      | none => exact forall_mem_nil _
      | some ps =>
        intro n hn
        obtain ⟨w, hw, rfl⟩ := mem_map.mp hn
        exact hformals ps rfl w hw
    · intro n hn
      obtain ⟨w, hw, rfl⟩ := mem_map.mp hn
      exact hwords w hw
    · rwa [Ne, map_eq_nil_iff]

theorem GateDef.name_eq_of_unplaced {g' : GateDef} (h : g'.unplaced = g.canonical) : g'.name = g.name := by
  rw [GateDef.unplaced, GateDef.canonical, GateDef.mk.injEq] at h
  exact h.1

/-- A declaration depends on the names of the gates before it only. -/
theorem GateDef.Restates.transfer {gates' : List GateDef}
    (h : g.Restates lib gates d) (hgates : gates'.map GateDef.name = gates.map GateDef.name) :
    g.Restates lib gates' d := by
  obtain ⟨g', hg', hreads⟩ := h.reads
  refine ⟨h.spelled, h.render_eq, g', ?_, hreads⟩
  have hknown : ∀ name, (findGate? gates name).isSome ↔ (findGate? gates' name).isSome := by
    intro name
    rw [Program.isSome_findGate?, Program.isSome_findGate?, hgates]
  cases hg' with
  | gate hfresh hparams hargs hbody =>
    refine .gate ⟨?_, hfresh.2⟩ hparams hargs ?_
    · rw [← Option.not_isSome_iff_eq_none, ← hknown, Option.not_isSome_iff_eq_none]
      exact hfresh.1
    · exact hbody.imp fun s n hs => BodyStatement.Resolves.transfer (fun name => (hknown name).mp) hs

/-! ## Items of a program -/

namespace Program

def includeItem (i : Include) : Item := .includes .origin ⟨"\"" ++ i.path ++ "\"", .origin⟩

/-- The item of a register, which is a quantum one if the flag is set. -/
def registerItem (d : Bool × String × Int) : Item :=
  .declaration (if d.1 then .qreg .origin ⟨d.2.1, .origin⟩ ⟨toString d.2.2, .origin⟩
    else .creg .origin ⟨d.2.1, .origin⟩ ⟨toString d.2.2, .origin⟩)

def addRegister (p : Program) (d : Bool × String × Int) : Program :=
  if d.1 then { p with qregs := p.qregs ++ [d.2] } else { p with cregs := p.cregs ++ [d.2] }

/-- The name of a register is a word, and its size is positive. -/
def IsRegister (r : String × Int) : Prop := Lexeme.isWord r.1 ∧ 0 < r.2

theorem text_includeItem (i : Include) : (includeItem i).text = includeText i.path := by
  show "include " ++ ("\"" ++ i.path ++ "\"") ++ ";" = "include \"" ++ i.path ++ "\";"
  rw [← String.append_assoc, ← String.append_assoc, @String.append_assoc _ "\"" ";"]
  rfl

theorem text_registerItem (d : Bool × String × Int) :
    (registerItem d).text = registerLine (if d.1 then "qreg" else "creg") d.2 := by
  obtain ⟨quantum, name, size⟩ := d
  cases quantum <;> rfl

variable {d : Bool × String × Int} {regs : List (Bool × String × Int)}

theorem spelled_registerItem (h : IsRegister d.2) : (registerItem d).Spelled := by
  obtain ⟨quantum, name, size⟩ := d
  cases quantum <;> exact ⟨h.1, Ref.isInteger_toString h.2.le, rfl⟩

theorem extend_includes (lib : Library) (includes : List Include) (p : Program) :
    ∃ includes', ItemsExtend lib p (includes.map includeItem) { p with includes := p.includes ++ includes' } ∧
      includes'.map Include.unplaced = includes.map Include.unplaced := by
  induction includes generalizing p with
  | nil => exact ⟨[], by rw [append_nil]; exact .nil, rfl⟩
  | cons i rest ih =>
    obtain ⟨rest', hrest, hmap⟩ := ih { p with includes := p.includes ++ [⟨i.path, Position.origin.clamp⟩] }
    refine ⟨⟨i.path, Position.origin.clamp⟩ :: rest', .cons (.includes rfl) ?_, ?_⟩
    · rw [append_cons p.includes _ rest']
      exact hrest
    · rw [map_cons, map_cons, hmap]
      rfl

theorem extends_registerItem (h : IsRegister d.2)
    (hq : p.qregs.lookup d.2.1 = none) (hc : p.cregs.lookup d.2.1 = none) :
    (registerItem d).Extends lib p (p.addRegister d) := by
  obtain ⟨quantum, name, size⟩ := d
  have hvalue : ((Word.mk (toString size) .origin).value : Int) = size := Ref.value_toString h.2.le
  have hpos : 0 < (Word.mk (toString size) .origin).value := by
    have hsize : 0 < size := h.2
    omega
  cases quantum with
  | true =>
    have hext : (registerItem (true, name, size)).Extends lib p
        { p with qregs := p.qregs ++ [(name, ((Word.mk (toString size) .origin).value : Int))] } :=
      .qreg hq hc hpos
    rwa [hvalue] at hext
  | false =>
    have hext : (registerItem (false, name, size)).Extends lib p
        { p with cregs := p.cregs ++ [(name, ((Word.mk (toString size) .origin).value : Int))] } :=
      .creg hq hc hpos
    rwa [hvalue] at hext

theorem lookup_append_singleton {regs : List (String × Int)} {name : String} {r : String × Int}
    (h : regs.lookup name = none) (hne : name ≠ r.1) : (regs ++ [r]).lookup name = none := by
  rw [lookup_append, h, Option.none_or, lookup_cons, beq_false_of_ne hne]
  rfl

/-- Registers with names of their own are added in any order. -/
theorem extend_registers (lib : Library) (ds : List (Bool × String × Int)) (p : Program) (h : ∀ d ∈ ds, IsRegister d.2)
    (hfree : ∀ d ∈ ds, p.qregs.lookup d.2.1 = none ∧ p.cregs.lookup d.2.1 = none)
    (hnames : (ds.map fun d => d.2.1).Nodup) : ItemsExtend lib p (ds.map registerItem) (ds.foldl addRegister p) := by
  induction ds generalizing p with
  | nil => exact .nil
  | cons d rest ih =>
    rw [forall_mem_cons] at h hfree
    rw [map_cons, nodup_cons] at hnames
    refine .cons (extends_registerItem h.1 hfree.1.1 hfree.1.2) (ih _ h.2 ?_ hnames.2)
    intro e he
    have hne : e.2.1 ≠ d.2.1 := fun heq => hnames.1 (heq ▸ mem_map_of_mem he)
    obtain ⟨hq, hc⟩ := hfree.2 e he
    unfold addRegister
    split
    · exact ⟨lookup_append_singleton hq hne, hc⟩
    · exact ⟨hq, lookup_append_singleton hc hne⟩

theorem foldl_addRegister (ds : List (Bool × String × Int)) (p : Program) : ds.foldl addRegister p = { p with
        qregs := p.qregs ++ (ds.filter (·.1)).map (·.2)
        cregs := p.cregs ++ (ds.filter (!·.1)).map (·.2) } := by
  induction ds generalizing p with
  | nil => simp
  | cons d rest ih =>
    obtain ⟨quantum, r⟩ := d
    rw [foldl_cons, ih]
    cases quantum <;> simp [addRegister]

/-- Declarations that can be written are added one after the other. -/
theorem extend_gates (lib : Library) (after before : List GateDef) (p : Program)
    (hbefore : p.gates.map GateDef.name = before.map GateDef.name)
    (h : ∀ xs g ys, after = xs ++ g :: ys → ∃ d, g.Restates lib (before ++ xs) d) :
    ∃ (ds : List Declaration) (gates : List GateDef), ItemsExtend lib p (ds.map .declaration)
    { p with gates := p.gates ++ gates } ∧
      gates.map GateDef.unplaced = after.map GateDef.canonical ∧
      after.mapM GateDef.render = .ok (ds.map Declaration.text) ∧ ∀ d ∈ ds, d.Spelled := by
  induction after generalizing before p with
  | nil =>
    refine ⟨[], [], ?_, rfl, rfl, forall_mem_nil _⟩
    rw [append_nil]
    exact .nil
  | cons g rest ih =>
    obtain ⟨d, hd⟩ := h [] g rest rfl
    rw [append_nil] at hd
    obtain ⟨g', hg', hreads⟩ := (hd.transfer hbefore).reads
    have hname : g'.name = g.name := GateDef.name_eq_of_unplaced hreads
    obtain ⟨ds, gates, hext, hmap, hrender, hspelled⟩ :=
      ih (before ++ [g]) { p with gates := p.gates ++ [g'] } (by simp [hbefore, hname]) (by
        intro xs x ys hrest
        rw [append_assoc, singleton_append]
        exact h (g :: xs) x ys (by rw [hrest, cons_append]))
    refine ⟨d :: ds, g' :: gates, .cons (.gate hg') ?_, ?_, ?_, forall_mem_cons.mpr ⟨hd.spelled, hspelled⟩⟩
    · rw [append_cons p.gates g' gates]
      exact hext
    · rw [map_cons, map_cons, hreads, hmap]
    · rw [mapM_cons, hd.render_eq, hrender]
      rfl

theorem within_addBody (p : Program) (nodes : List Node) : p.Within { p with body := p.body ++ nodes } :=
  ⟨fun _ _ h => h, fun _ _ h => h, fun _ h => h⟩

/-- Statements that can be written are added one after the other. -/
theorem extend_body (lib : Library) (nodes : List Node) (p : Program)
    (h : ∀ n ∈ nodes, ∃ s : Statement, s.Restates lib p n) : ∃ (ss : List Statement) (nodes' : List Node),
      ItemsExtend lib p (ss.map .statement) { p with body := p.body ++ nodes' } ∧
      nodes'.map Node.unplaced = nodes.map Node.canonical ∧
      nodes.mapM Node.statementLine = .ok (ss.map fun s => s.text ++ ";") ∧ ∀ s ∈ ss, s.Spelled := by
  induction nodes generalizing p with
  | nil =>
    refine ⟨[], [], ?_, rfl, rfl, forall_mem_nil _⟩
    rw [append_nil]
    exact .nil
  | cons n rest ih =>
    rw [forall_mem_cons] at h
    obtain ⟨⟨s, hs⟩, hrest⟩ := h
    obtain ⟨m, hm, hreads⟩ := hs.reads
    obtain ⟨ss, nodes', hext, hmap, hlines, hspelled⟩ :=
      ih { p with body := p.body ++ [m] } fun n hn => by
        obtain ⟨s, hs⟩ := hrest n hn
        exact ⟨s, hs.mono (within_addBody p [m])⟩
    refine ⟨s :: ss, m :: nodes', .cons (.statement hm) ?_, ?_, ?_, forall_mem_cons.mpr ⟨hs.spelled, hspelled⟩⟩
    · rw [append_cons p.body m nodes']
      exact hext
    · rw [map_cons, map_cons, hreads, hmap]
    · rw [mapM_cons, hs.line_eq, hlines]
      rfl

/-! ## Readable programs -/

/-- A program whose parts can be written, if they have a text. -/
structure Readable (lib : Library) (p : Program) : Prop where
  version : Lexeme.isNumber p.version
  includes : ∀ i ∈ p.includes, Lexeme.isQuotable i.path
  registers : ∀ r ∈ p.qregs ++ p.cregs, IsRegister r
  names : ((p.qregs ++ p.cregs).map Prod.fst).Nodup
  gates : ∀ before g after, p.gates = before ++ g :: after → ∀ text, g.render = .ok text → ∃ d, g.Restates lib before d
  body : ∀ n ∈ p.body, ∀ line, n.statementLine = .ok line → ∃ s : Statement, s.Restates lib p n

/-- What holds of each item of a list, with those before it, holds with one more item behind them. -/
theorem forall_split_snoc {P : List α → α → Prop} {as : List α} {a : α}
    (h : ∀ before b after, as = before ++ b :: after → P before b) (ha : P as a) :
    ∀ before b after, as ++ [a] = before ++ b :: after → P before b := by
  intro before b after hsplit
  rcases eq_nil_or_concat after with rfl | ⟨rest, last, rfl⟩
  · -- The new item is the last one, and all the others stand before it.
    obtain ⟨rfl, hlast⟩ := append_inj' hsplit rfl
    obtain rfl := singleton_inj.mp hlast
    exact ha
  · rw [concat_eq_append, ← cons_append, ← append_assoc] at hsplit
    exact h before b rest (append_inj' hsplit rfl).1

/-- All registers of a program, the quantum ones first. -/
def registerList (p : Program) : List (Bool × String × Int) :=
  p.qregs.map (true, ·) ++ p.cregs.map (false, ·)

theorem join_itemsText (line : String) (items : List Item) :
    Text.join "\n" (line :: items.map Item.text) = line ++ itemsText items := by
  induction items generalizing line with
  | nil => exact String.append_empty.symm
  | cons i rest ih =>
    show line ++ "\n" ++ Text.join "\n" (i.text :: rest.map Item.text) = line ++ ("\n" ++ i.text ++ itemsText rest)
    rw [ih, String.append_assoc, String.append_assoc]

theorem mem_of_mapM_ok {β : Type} {f : α → Except Fault β} {as : List α} {bs : List β}
    (h : as.mapM f = .ok bs) : ∀ a ∈ as, ∃ b, f a = .ok b := by
  intro a ha
  have hall := mapM_eq_ok.mp h
  clear h
  induction hall with
  | nil => exact absurd ha not_mem_nil
  | cons hb _ ih =>
    rcases mem_cons.mp ha with rfl | ha
    · exact ⟨_, hb⟩
    · exact ih ha

theorem isShort_of_guardText {guard : Option Guard} (h : guardText guard text = .ok line) :
    ∀ g ∈ guard, Text.isShort g.value := by
  rintro g ⟨⟩
  exact (Text.showing_eq_ok.mp h).1

/-- The guard of a statement that has a text is short. -/
theorem isShort_of_statementLine {n : Node} (h : n.statementLine = .ok line) :
    ∀ g ∈ guardOf? n, Text.isShort g.value := by
  obtain ⟨text, htext, -⟩ := bind_eq_ok.mp h
  cases n with
  | measure qubit clbit position guard =>
    obtain ⟨q, -, hrest⟩ := bind_eq_ok.mp htext
    obtain ⟨c, -, hguard⟩ := bind_eq_ok.mp hrest
    exact isShort_of_guardText hguard
  | call | primitive =>
    obtain ⟨_, -, hguard⟩ := bind_eq_ok.mp htext
    exact isShort_of_guardText hguard
  | _ => exact fun g hg => by cases hg

/-- The integers of what is read from the lines of a program are short, if the sizes of its registers are. -/
theorem hasShortIntegers_of_lines
    (hsizes : ∀ r ∈ p.qregs ++ p.cregs, Text.isShort r.2) (hlines : p.body.mapM Node.statementLine = .ok lines)
    (h : q.unplaced = p.canonical) : q.hasShortIntegers := by
  obtain ⟨-, -, hqregs, hcregs, -, hbody⟩ := unplaced_eq_canonical_iff.mp h
  rw [hasShortIntegers, hqregs, hcregs, Bool.and_eq_true]
  refine ⟨all_eq_true.mpr hsizes, all_eq_true.mpr fun m hm => ?_⟩
  obtain ⟨n, hn, heq⟩ := mem_map.mp (hbody ▸ mem_map_of_mem (f := Node.unplaced) hm)
  obtain ⟨line, hline⟩ := mem_of_mapM_ok hlines n hn
  rw [Node.guardOf?_eq_of_unplaced heq.symm, Option.all_eq_true]
  exact isShort_of_statementLine hline

/-- The items of a program with its registers in some order, and with the sources of its gates and statements. -/
def itemsOf (p : Program) (regs : List (Bool × String × Int)) (ds : List Declaration) (ss : List Statement) :
    List Item :=
  p.includes.map includeItem ++ regs.map registerItem ++ ds.map .declaration ++ ss.map .statement

def registerText (d : Bool × String × Int) : String := registerLine (if d.1 then "qreg" else "creg") d.2

/-- The lines of a program with its registers in some order, and with the texts of its gates and statements. -/
def linesOf (p : Program) (regs : List (Bool × String × Int)) (gates body : List String) : List String :=
  ["OPENQASM " ++ p.version ++ ";"] ++ p.includes.map (fun i => includeText i.path) ++ regs.map registerText ++
    gates ++ body

theorem map_text_itemsOf (p : Program) (regs : List (Bool × String × Int)) (ds : List Declaration)
    (ss : List Statement) : (p.itemsOf regs ds ss).map Item.text =
      p.includes.map (fun i => includeText i.path) ++ regs.map registerText ++ ds.map Declaration.text ++
      ss.map fun s => s.text ++ ";" := by
  have hincludes : (p.includes.map includeItem).map Item.text = p.includes.map fun i => includeText i.path := by
    rw [map_map]
    exact map_congr_left fun i _ => text_includeItem i
  have hregs : (regs.map registerItem).map Item.text = regs.map registerText := by
    rw [map_map]
    exact map_congr_left fun d _ => text_registerItem d
  rw [itemsOf, map_append, map_append, map_append, hincludes, hregs, map_map, map_map]
  rfl

/-- Some registers are those of a program, in any order of the kinds. -/
structure Lists (p : Program) (regs : List (Bool × String × Int)) : Prop where
  quantum : (regs.filter (·.1)).map (·.2) = p.qregs
  classical : (regs.filter (!·.1)).map (·.2) = p.cregs

theorem lists_registerList (p : Program) : p.Lists p.registerList := by
  refine ⟨?_, ?_⟩ <;> simp [registerList, filter_map, Function.comp_def]

theorem Lists.perm (h : p.Lists regs) : (regs.map (·.2)).Perm (p.qregs ++ p.cregs) := by
  rw [← h.quantum, ← h.classical, ← map_append]
  exact (filter_append_perm _ _).symm.map _

theorem Lists.foldl (h : p.Lists regs) (hq : q.qregs = []) (hc : q.cregs = []) :
    regs.foldl addRegister q = { q with qregs := p.qregs, cregs := p.cregs } := by
  rw [foldl_addRegister, hq, hc, h.quantum, h.classical, nil_append, nil_append]

section

variable {regs : List (Bool × String × Int)}

theorem Readable.isRegister (h : p.Readable lib) (hregs : p.Lists regs) : ∀ d ∈ regs, IsRegister d.2 :=
  fun d hd => h.registers d.2 (hregs.perm.mem_iff.mp (mem_map_of_mem hd))

theorem Readable.spelled_itemsOf (h : p.Readable lib) (hregs : p.Lists regs) {ds : List Declaration}
    {ss : List Statement} (hds : ∀ d ∈ ds, d.Spelled) (hss : ∀ s ∈ ss, s.Spelled) :
    ∀ i ∈ p.itemsOf regs ds ss, i.Spelled := by
  intro i hi
  simp only [itemsOf, mem_append, mem_map] at hi
  rcases hi with ((⟨j, hj, rfl⟩ | ⟨d, hd, rfl⟩) | ⟨d, hd, rfl⟩) | ⟨s, hs, rfl⟩
  · exact ⟨j.path, h.includes j hj, rfl⟩
  · exact spelled_registerItem (h.isRegister hregs d hd)
  · exact hds d hd
  · exact hss s hs

variable {gateTexts : List String}

/-- The lines of a readable program are the text of a source whose items build up the program again. -/
theorem Readable.exists_source (h : p.Readable lib) (hregs : p.Lists regs)
    (hgateTexts : p.gates.mapM GateDef.render = .ok gateTexts) (hlines : p.body.mapM Node.statementLine = .ok lines) :
    ∃ s : Source, s.Spelled ∧ s.text = Text.join "\n" (p.linesOf regs gateTexts lines) ++ "\n" ∧
      ∃ q, ItemsExtend lib (empty s.version.text) s.items q ∧ q.unplaced = p.canonical := by
  obtain ⟨includes, hincludes, hincludes'⟩ := extend_includes lib p.includes (empty p.version)
  have hnames : (regs.map fun d => d.2.1).Nodup := by
    have hnodup := (hregs.perm.map Prod.fst).nodup_iff.mpr h.names
    rwa [map_map] at hnodup
  have hextend := extend_registers lib regs { empty p.version with includes := includes }
    (h.isRegister hregs) (fun d _ => ⟨rfl, rfl⟩) hnames
  rw [hregs.foldl rfl rfl] at hextend
  obtain ⟨ds, gates, hgates, hgates', hdeclarations, hds⟩ := extend_gates lib p.gates []
    { empty p.version with includes := includes, qregs := p.qregs, cregs := p.cregs } rfl (by
      intro xs g ys hsplit
      have hg : g ∈ p.gates := by rw [hsplit]; simp
      obtain ⟨gateText, hgateText⟩ := mem_of_mapM_ok hgateTexts g hg
      exact h.gates xs g ys hsplit gateText hgateText)
  have hwithin : p.Within
      { empty p.version with includes := includes, qregs := p.qregs, cregs := p.cregs, gates := gates } := by
    refine ⟨fun _ _ hsize => hsize, fun _ _ hsize => hsize, fun name hname => ?_⟩
    have hnames := congrArg (List.map GateDef.name) hgates'
    rw [map_map, map_map] at hnames
    rw [isSome_findGate?] at hname ⊢
    exact hnames ▸ hname
  obtain ⟨ss, nodes, hnodes, hnodes', hstatements, hss⟩ := extend_body lib p.body
    { empty p.version with includes := includes, qregs := p.qregs, cregs := p.cregs, gates := gates } (by
      intro n hn
      obtain ⟨line, hline⟩ := mem_of_mapM_ok hlines n hn
      obtain ⟨s, hs⟩ := h.body n hn line hline
      exact ⟨s, hs.mono hwithin⟩)
  refine ⟨⟨.origin, ⟨p.version, .origin⟩, p.itemsOf regs ds ss⟩,
    ⟨h.version, h.spelled_itemsOf hregs hds hss⟩, ?_, _, ((hincludes.append hextend).append hgates).append hnodes, ?_⟩
  · rw [Except.ok.inj (hgateTexts.symm.trans hdeclarations), Except.ok.inj (hlines.symm.trans hstatements), Source.text,
      ← join_itemsText, map_text_itemsOf, linesOf]
    simp only [append_assoc, cons_append, nil_append]
  · exact unplaced_eq_canonical_iff.mpr ⟨rfl, hincludes', rfl, rfl, hgates', hnodes'⟩

/-- The lines of a readable program with short sizes read back, up to places and signs of zeros. -/
theorem Readable.parse_lines (h : p.Readable lib) (hsizes : ∀ r ∈ p.qregs ++ p.cregs, Text.isShort r.2)
    (hregs : p.Lists regs) (hgateTexts : p.gates.mapM GateDef.render = .ok gateTexts)
    (hlines : p.body.mapM Node.statementLine = .ok lines) :
    ∃ q, parse lib (Text.join "\n" (p.linesOf regs gateTexts lines) ++ "\n") = .ok q ∧ q.unplaced = p.canonical := by
  obtain ⟨s, hs, htext, q, hq, hreads⟩ := h.exists_source hregs hgateTexts hlines
  obtain ⟨s', hparse, hplaces⟩ := Source.parse_text hs
  have hspelled := Source.spelled_of_parse hparse
  have hversion : s'.version.text = s.version.text := by
    rw [Source.unplaced, Source.unplaced, Source.mk.injEq] at hplaces
    exact Word.text_eq hplaces.2.1
  have hitems : s'.items.map Item.unplaced = s.items.map Item.unplaced := by
    rw [Source.unplaced, Source.unplaced, Source.mk.injEq] at hplaces
    exact hplaces.2.2
  rw [← hversion] at hq
  obtain ⟨q', hq', hreads'⟩ := hq.unplaced rfl hitems
  refine ⟨q', parse_iff.mpr ⟨s', htext ▸ hparse, (ofTree_iff hspelled).mpr hq', ?_⟩, hreads'.trans hreads⟩
  exact hasShortIntegers_of_lines hsizes hlines (hreads'.trans hreads)

/-- The text of a program has its lines, with the quantum registers first. -/
theorem exists_lines_of_render (htext : p.render = .ok text) :
    ∃ gateTexts lines, p.gates.mapM GateDef.render = .ok gateTexts ∧ p.body.mapM Node.statementLine = .ok lines ∧
      text = Text.join "\n" (p.linesOf p.registerList gateTexts lines) ++ "\n" := by
  obtain ⟨gateTexts, hgateTexts, hrest⟩ := bind_eq_ok.mp htext
  obtain ⟨lines, hlines, hpure⟩ := bind_eq_ok.mp hrest
  have hregs : p.registerList.map registerText =
      p.qregs.map (registerLine "qreg") ++ p.cregs.map (registerLine "creg") := by
    rw [registerList, map_append, map_map, map_map]
    rfl
  refine ⟨gateTexts, lines, hgateTexts, hlines, ?_⟩
  rw [← pure_eq_ok.mp hpure, linesOf, hregs]
  simp only [append_assoc]

/-- The text of a readable program reads back, up to places and signs of zeros. -/
theorem Readable.parse_render (h : p.Readable lib) (hsizes : ∀ r ∈ p.qregs ++ p.cregs, Text.isShort r.2)
    (htext : p.render = .ok text) : ∃ q, parse lib text = .ok q ∧ q.unplaced = p.canonical := by
  obtain ⟨gateTexts, lines, hgateTexts, hlines, rfl⟩ := exists_lines_of_render htext
  exact h.parse_lines hsizes p.lists_registerList hgateTexts hlines

end

end Program

end QasmCircuit
