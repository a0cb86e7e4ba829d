import QasmCircuit.Proofs.Program.Resolve

/-!
# Programs grow item by item

The items of a source are read one after the other, and each one adds to the program: an include, a
register, a gate or a statement. `Item.Extends` says what an item adds and when it may, and
`Program.ofTree_iff` that the reader does nothing else.

Since declarations are only added, everything that resolved before goes on to do so (`Within`).
-/

namespace QasmCircuit

open Source

variable {lib : Library} {p q : Program} {items : List Item} {i : Item} {n : Node}

/-! ## What an item adds -/

/-- What gate a declaration declares, with some gates declared before it. -/
inductive Source.Declaration.Declares (lib : Library) (gates : List GateDef) : Declaration → GateDef → Prop
  | gate {position : Position} {name : Word} {params : Option Formals} {args : List Word}
      {bodyPosition : Position} {body : List BodyStatement} {nodes : List Node}
      (hfresh : Program.IsFresh lib gates name.text)
      (hparams : Program.repeats (Program.formalNames params) = false)
      (hargs : Program.repeats (args.map Word.text) = false)
      (hbody : Program.BodyResolves lib gates ⟨name.text, Program.formalNames params, args.map Word.text⟩ body nodes) :
      Declares lib gates (.gate position name params args bodyPosition body)
        ⟨name.text, position.clamp, Program.formalNames params, args.map Word.text, nodes⟩

/-- What an item makes of a program. -/
inductive Source.Item.Extends (lib : Library) (p : Program) : Item → Program → Prop
  | includes {position : Position} {path : Word} {s : String} (h : path.text = "\"" ++ s ++ "\"") :
      Extends lib p (.includes position path) { p with includes := p.includes ++ [⟨s, position.clamp⟩] }
  | qreg {position : Position} {name size : Word} (hq : p.qregs.lookup name.text = none)
      (hc : p.cregs.lookup name.text = none) (hpos : 0 < size.value) :
      Extends lib p (.declaration (.qreg position name size))
        { p with qregs := p.qregs ++ [(name.text, (size.value : Int))] }
  | creg {position : Position} {name size : Word} (hq : p.qregs.lookup name.text = none)
      (hc : p.cregs.lookup name.text = none) (hpos : 0 < size.value) :
      Extends lib p (.declaration (.creg position name size))
        { p with cregs := p.cregs ++ [(name.text, (size.value : Int))] }
  | gate {d : Declaration} {g : GateDef} (h : d.Declares lib p.gates g) :
      Extends lib p (.declaration d) { p with gates := p.gates ++ [g] }
  | statement {s : Statement} {n : Node} (h : s.Resolves lib p n) :
      Extends lib p (.statement s) { p with body := p.body ++ [n] }

/-- What items make of a program, one after the other. -/
inductive Source.ItemsExtend (lib : Library) : Program → List Item → Program → Prop
  | nil {p : Program} : ItemsExtend lib p [] p
  | cons {p q r : Program} {i : Item} {items : List Item} (h : i.Extends lib p q)
      (hrest : ItemsExtend lib q items r) : ItemsExtend lib p (i :: items) r

theorem Source.ItemsExtend.append {r : Program} {more : List Item}
    (h : ItemsExtend lib p items q) (hmore : ItemsExtend lib q more r) : ItemsExtend lib p (items ++ more) r := by
  induction h with
  | nil => exact hmore
  | cons hi _ ih => exact .cons hi (ih hmore)

namespace Program

open Outcome

/-- A gate under a new name takes its place behind the others. -/
theorem putGate_of_fresh {g : GateDef} {gates : List GateDef} (h : findGate? gates g.name = none) :
    putGate g gates = gates ++ [g] := by
  induction gates with
  | nil => rfl
  | cons first rest ih =>
    rw [findGate?, List.find?_cons] at h
    cases hname : first.name == g.name with
    | true => rw [hname] at h; cases h
    | false =>
      rw [hname] at h
      rw [putGate, hname, if_neg Bool.false_ne_true, ih h, List.cons_append]

theorem unquoted_quoted (s : String) : unquoted ("\"" ++ s ++ "\"") = s := by
  have hquoted : ("\"" ++ s ++ "\"").toList = '"' :: (s.toList ++ ['"']) := by
    rw [String.toList_append, String.toList_append]
    rfl
  rw [unquoted, hquoted, List.drop_one, List.tail_cons, List.dropLast_concat, String.ofList_toList]

theorem item_iff (h : i.Spelled) : item lib p i.toTree = .ok q ↔ i.Extends lib p q := by
  cases i with
  | includes position path =>
    obtain ⟨s, -, hpath⟩ := h
    have hitem : item lib p (Item.includes position path).toTree =
        .ok { p with includes := p.includes ++ [⟨unquoted path.text, position.clamp⟩] } := rfl
    rw [hitem, hpath, unquoted_quoted, Except.ok.injEq]
    constructor
    · rintro rfl
      exact .includes hpath
    · intro hq
      cases hq with
      | includes hother =>
        have hs := (unquoted_quoted _).symm.trans ((congrArg unquoted (hpath.symm.trans hother)).trans
          (unquoted_quoted _))
        rw [hs]
  | declaration d =>
    cases d with
    | qreg position name size =>
      have hitem : item lib p (Item.declaration (.qreg position name size)).toTree = (do
          let r ← register p "qreg" (branch "qreg" position [name.name, size.integer])
          pure { p with qregs := p.qregs ++ [r] }) := rfl
      rw [hitem]
      simp only [bind_eq_ok, pure_eq_ok, register_iff h.2.1]
      constructor
      · rintro ⟨r, ⟨hq, hc, hpos, rfl⟩, rfl⟩
        exact .qreg hq hc hpos
      · intro hext
        cases hext with
        | qreg hq hc hpos => exact ⟨_, ⟨hq, hc, hpos, rfl⟩, rfl⟩
        | gate hg => cases hg
    | creg position name size =>
      have hitem : item lib p (Item.declaration (.creg position name size)).toTree = (do
          let r ← register p "creg" (branch "creg" position [name.name, size.integer])
          pure { p with cregs := p.cregs ++ [r] }) := rfl
      rw [hitem]
      simp only [bind_eq_ok, pure_eq_ok, register_iff h.2.1]
      constructor
      · rintro ⟨r, ⟨hq, hc, hpos, rfl⟩, rfl⟩
        exact .creg hq hc hpos
      · intro hext
        cases hext with
        | creg hq hc hpos => exact ⟨_, ⟨hq, hc, hpos, rfl⟩, rfl⟩
        | gate hg => cases hg
    | gate position name params args bodyPosition body =>
      have hitem : item lib p (Item.declaration (.gate position name params args bodyPosition body)).toTree = (do
          let g ← gate lib p (gateTree position name params args bodyPosition body)
          pure { p with gates := putGate g p.gates }) := rfl
      rw [hitem]
      simp only [bind_eq_ok, pure_eq_ok, gate_iff h.2.2.2]
      constructor
      · rintro ⟨g, ⟨hfresh, hparams, hargs, nodes, hbody, rfl⟩, rfl⟩
        rw [putGate_of_fresh hfresh.1]
        exact .gate (.gate hfresh hparams hargs hbody)
      · intro hext
        cases hext with
        | gate hg =>
          cases hg with
          | gate hfresh hparams hargs hbody =>
          exact ⟨_, ⟨hfresh, hparams, hargs, _, hbody, rfl⟩, by rw [putGate_of_fresh hfresh.1]⟩
  | statement s =>
    have hitem : item lib p (Item.statement s).toTree = (do
        let n ← statement lib p s.toTree
        pure { p with body := p.body ++ [n] }) := by
      cases s <;> rfl
    rw [hitem]
    simp only [bind_eq_ok, pure_eq_ok, statement_iff h]
    constructor
    · rintro ⟨n, hn, rfl⟩
      exact .statement hn
    · intro hext
      cases hext with
      | statement hn => exact ⟨_, hn, rfl⟩

theorem items_iff (h : ∀ i ∈ items, i.Spelled) :
    (items.map Item.toTree).foldlM (item lib) p = .ok q ↔ ItemsExtend lib p items q := by
  induction items generalizing p with
  | nil =>
    rw [List.map_nil, List.foldlM_nil, pure_eq_ok]
    constructor
    · rintro rfl
      exact .nil
    · intro hext
      cases hext
      rfl
  | cons i items ih =>
    rw [List.forall_mem_cons] at h
    rw [List.map_cons, List.foldlM_cons, bind_eq_ok]
    simp only [item_iff h.1, ih h.2]
    constructor
    · rintro ⟨r, hr, hrest⟩
      exact .cons hr hrest
    · intro hext
      cases hext with
      | cons hr hrest => exact ⟨_, hr, hrest⟩

/-- A program without declarations and statements. -/
def empty (version : String) : Program := { version := version }

/-- The reader adds what the items add, one after the other. -/
theorem ofTree_iff {s : Source} (h : s.Spelled) :
    ofTree lib s.toTree = .ok q ↔ ItemsExtend lib (empty s.version.text) s.items q := by
  rw [← items_iff h.2]
  rfl

theorem parse_iff {text : String} : parse lib text = .ok q ↔
    ∃ s : Source, Source.parse text = .ok s ∧ ofTree lib s.toTree = .ok q ∧ q.hasShortIntegers := by
  rw [parse, bind_eq_ok]
  refine exists_congr fun s => and_congr_right fun _ => bind_eq_ok.trans ⟨?_, fun h => ⟨q, h.1, if_pos h.2⟩⟩
  rintro ⟨p, hp, hshort⟩
  split at hshort
  · obtain rfl := pure_eq_ok.mp hshort
    exact ⟨hp, ‹_›⟩
  · cases hshort

/-! ## Nothing is taken back -/

/-- Whatever a program declares, another one declares as well. -/
structure Within (p q : Program) : Prop where
  qregs : ∀ name size, p.qregs.lookup name = some size → q.qregs.lookup name = some size
  cregs : ∀ name size, p.cregs.lookup name = some size → q.cregs.lookup name = some size
  gates : ∀ name, (findGate? p.gates name).isSome → (findGate? q.gates name).isSome

theorem lookup_append_of_some {regs more : List (String × Int)} {name : String} {size : Int}
    (h : regs.lookup name = some size) : (regs ++ more).lookup name = some size := by
  rw [List.lookup_append, h, Option.some_or]

theorem Within.of_extends (h : i.Extends lib p q) : p.Within q := by
  cases h with
  | includes h => exact ⟨fun _ _ h => h, fun _ _ h => h, fun _ h => h⟩
  | qreg hq hc hpos => exact ⟨fun _ _ h => lookup_append_of_some h, fun _ _ h => h, fun _ h => h⟩
  | creg hq hc hpos => exact ⟨fun _ _ h => h, fun _ _ h => lookup_append_of_some h, fun _ h => h⟩
  | gate hg =>
    refine ⟨fun _ _ h => h, fun _ _ h => h, fun name h => ?_⟩
    rw [findGate?, List.find?_append, Option.isSome_or, Bool.or_eq_true]
    exact .inl h
  | statement h => exact ⟨fun _ _ h => h, fun _ _ h => h, fun _ h => h⟩

end Program

namespace Source

open Program (GateScope Within)

theorem Reference.IsQuantum.mono (hpq : p.Within q) {r : Reference} (h : r.IsQuantum p none) : r.IsQuantum q none := by
  obtain ⟨size, hsize, hrange⟩ := h
  exact ⟨size, hpq.qregs _ _ hsize, hrange⟩

theorem Action.Resolves.mono (hpq : p.Within q) {a : Action} (h : a.Resolves lib p n) :
    a.Resolves lib q n := by
  cases h with
  | operation hop => exact .operation (hop.transfer (fun _ hr => hr.mono hpq) hpq.gates)
  | measure hqubit hclbit =>
    obtain ⟨size, hsize, hrange⟩ := hclbit
    exact .measure (hqubit.mono hpq) ⟨size, hpq.cregs _ _ hsize, hrange⟩

theorem Statement.Resolves.mono (hpq : p.Within q) {s : Statement} (h : s.Resolves lib p n) :
    s.Resolves lib q n := by
  cases h with
  | action ha => exact .action (ha.mono hpq)
  | barrier hoperands => exact .barrier fun r hr => (hoperands r hr).mono hpq
  | guarded hregister hfits ha => exact .guarded (hpq.cregs _ _ hregister) hfits (ha.mono hpq)

end Source

end QasmCircuit
