import QasmCircuit.Circuit.Text
import QasmCircuit.Proofs.Circuit.Reversal
import QasmCircuit.Proofs.Expr.Real

/-!
# The lines of a circuit

The text of a circuit has a line for every instruction without a body, in the order of the flattened circuit. Such an
instruction has a line if its controls lead to a gate of the library, since its parameters are finite. Where inverses
can be controlled they always do, so that a circuit in which no gate contains itself has a text.

> `Action.writes_circuitText`: the text of a circuit.
> `Store.hasForm_of_flattened`: all gates have a form with their controls, where inverses can be controlled.
-/

namespace QasmCircuit

open Outcome Text List

/-! ## Joined lines -/

namespace Text

theorem join_cons_of_ne (separator s : String) {rest : List String} (h : rest ≠ []) :
    join separator (s :: rest) = s ++ separator ++ join separator rest := by
  cases rest with
  | nil => exact absurd rfl h
  | cons t rest => rfl

theorem isEmpty_append {s t : String} : (s ++ t).isEmpty = (s.isEmpty && t.isEmpty) := by
  rw [Bool.eq_iff_iff, Bool.and_eq_true, String.isEmpty_iff, String.isEmpty_iff, String.isEmpty_iff,
    String.append_eq_empty_iff]

variable {separator : String}

/-- Lines that are not empty give a text that is not empty. -/
theorem isEmpty_join {lines : List String} (h : ∀ l ∈ lines, l.isEmpty = false) :
    (join separator lines).isEmpty = lines.isEmpty := by
  cases lines with
  | nil => rfl
  | cons l rest =>
    rw [forall_mem_cons] at h
    by_cases hrest : rest = []
    · rw [hrest, join_singleton, h.1]
      rfl
    · rw [join_cons_of_ne _ _ hrest, isEmpty_append, isEmpty_append, h.1]
      rfl

theorem join_append {ls ms : List String} (hls : ls ≠ []) (hms : ms ≠ []) :
    join separator (ls ++ ms) = join separator ls ++ separator ++ join separator ms := by
  induction ls with
  | nil => exact absurd rfl hls
  | cons l rest ih =>
    by_cases hrest : rest = []
    · rw [hrest, singleton_append, join_cons_of_ne _ _ hms, join_singleton]
    · rw [cons_append, join_cons_of_ne _ _ (append_ne_nil_of_left_ne_nil hrest ms), ih hrest, join_cons_of_ne _ _ hrest]
      simp only [String.append_assoc]

theorem filter_joins {groups : List (List String)} (h : ∀ ls ∈ groups, ∀ l ∈ ls, l.isEmpty = false) :
    (groups.map (join separator)).filter (fun t => !t.isEmpty) =
      (groups.filter fun ls => !ls.isEmpty).map (join separator) := by
  rw [filter_map]
  refine congrArg _ (filter_congr fun ls hls => ?_)
  rw [Function.comp_apply, isEmpty_join (h ls hls)]

/-- Joined groups of lines, joined in turn, are the lines of all groups joined. -/
theorem join_append_joins (ls : List String) {groups : List (List String)}
    (h : ∀ ls ∈ groups, ∀ l ∈ ls, l.isEmpty = false) :
    join separator (ls ++ (groups.map (join separator)).filter fun t => !t.isEmpty) =
      join separator (ls ++ groups.flatten) := by
  rw [filter_joins h]
  clear h
  induction groups generalizing ls with
  | nil => rfl
  | cons ms rest ih =>
    cases ms with
    | nil => exact ih ls
    | cons m ms =>
      rw [filter_cons_of_pos rfl, map_cons, flatten_cons]
      have hgroup : ∀ more, join separator (ls ++ join separator (m :: ms) :: more) =
          join separator (ls ++ (m :: ms) ++ more) := by
        intro more
        by_cases hmore : more = []
        · by_cases hls : ls = []
          · rw [hmore, hls, nil_append, nil_append, append_nil, join_singleton]
          · rw [hmore, append_nil, join_append hls (cons_ne_nil _ _), join_append hls (cons_ne_nil _ _), join_singleton]
        · by_cases hls : ls = []
          · rw [hls, nil_append, nil_append, join_cons_of_ne _ _ hmore, join_append (cons_ne_nil _ _) hmore]
          · rw [join_append hls (cons_ne_nil _ _), join_cons_of_ne _ _ hmore, append_assoc,
              join_append hls (append_ne_nil_of_left_ne_nil (cons_ne_nil _ _) more),
              join_append (cons_ne_nil _ _) hmore]
      rw [hgroup, ih, append_assoc]

end Text

/-! ## Lines of instructions -/

namespace Instruction

/-- The name that an instruction is written under. A gate with controls is written as another gate of the library. -/
def writtenAs (lib : Library) (x : Instruction) : String :=
  match x.operation with
  | .atomic f => ((lib.controlledBy x.controlBits.length f).getD f).name
  | _ => x.name

variable {x : Instruction}

theorem writtenAs_of_controlledBy {lib : Library} {f g : Family} (hop : x.operation = .atomic f)
    (hg : lib.controlledBy x.controlBits.length f = some g) : x.writtenAs lib = g.name := by
  rw [writtenAs, hop]
  dsimp only
  rw [hg, Option.getD_some]

def paramTexts (x : Instruction) : List String := x.params.map fun p => Decimal.text (Decimal.plain p)

/-- A condition in front of a statement, written out however many digits its value has. -/
def guardedText (x : Instruction) (text : String) : String :=
  match x.condition with
  | none => text
  | some (r, v) => s!"if({r.name}=={v}) {text}"

/-- The value of the condition of an instruction can be written. -/
def isShort (x : Instruction) : Bool := x.condition.all fun c => Text.isShort c.2

theorem conditionText_eq (x : Instruction) (text : String) :
    conditionText x.condition text = showing x.isShort (x.guardedText text) := by
  unfold isShort guardedText
  cases x.condition <;> rfl

theorem isShort_of_none (h : x.condition = none) : x.isShort := by
  rw [isShort, h]
  rfl

/-- The line of an instruction; a gate with a body has none. -/
def line (lib : Library) (x : Instruction) : String :=
  match x.operation with
  | .atomic _ =>
    x.guardedText
      (nameWithParams (x.writtenAs lib) x.paramTexts ++ " " ++ join "," (x.allBits.map Bit.text)) ++ ";"
  | .barrier => "barrier " ++ join "," (x.args.map Bit.text) ++ ";"
  | .measure => x.guardedText ("measure " ++ join " -> " (x.args.map Bit.text)) ++ ";"
  | .composite _ _ _ => ""

/-- A gate has a form with its controls. -/
def HasForm (lib : Library) (x : Instruction) : Prop :=
  ∀ f, x.operation = .atomic f → (lib.controlledBy x.controlBits.length f).isSome

theorem isEmpty_line {lib : Library} (h : x.isComposite = false) : (x.line lib).isEmpty = false := by
  have hsemicolon : ∀ text : String, (text ++ ";").isEmpty = false := by
    intro text
    rw [isEmpty_append, Bool.and_eq_false_iff]
    exact .inr rfl
  unfold line
  split
  · exact hsemicolon _
  · exact hsemicolon _
  · exact hsemicolon _
  · next hop => exact absurd_leaf h hop

end Instruction

namespace Action

variable {lib : Library} {lost loose : Set InstructionId} {s : Store} {i : InstructionId}
  {x : Instruction} {n N : Nat} {xs : List Instruction}

theorem mapM_realText {params : List Float} (h : ∀ p ∈ params, p.isFinite) :
    params.mapM Term.realText = .ok (params.map fun p => Decimal.text (Decimal.plain p)) := by
  rw [mapM_eq_ok, forall₂_map_right_iff]
  exact forall₂_same.mpr fun p hp => if_pos (h p hp)

variable {c : CircuitId}

/-- A step writes some instructions, unless the value of a condition has too many digits. -/
def Writes {α : Type} (a : Action α) (s : Store) (xs : List Instruction) (P : α → Prop) : Prop :=
  a.Ends s (fun v t => t = s ∧ (∀ x ∈ xs, x.isShort) ∧ P v)
    fun e t => t = s ∧ e = .defect .tooManyDigits ∧ ∃ x ∈ xs, x.isShort = false

theorem Writes.returns {α : Type} {a : Action α} {v : α} (h : a.Writes s xs (· = v)) (hshort : ∀ x ∈ xs, x.isShort) :
    a.Returns s v s := by
  have hattains : a.Attains s fun w t => w = v ∧ t = s := by
    refine h.imp (fun _ _ h => ⟨h.2.2, h.1⟩) ?_
    rintro _ _ ⟨-, -, x, hx, hlong⟩
    rw [hshort x hx] at hlong
    cases hlong
  obtain ⟨w, t, hreturns, rfl, rfl⟩ := hattains.returns
  exact hreturns

theorem Writes.map {α β : Type} {a : Action α} {P : α → Prop} {Q : β → Prop} {g : α → β} (h : a.Writes s xs P)
    (hg : ∀ v, P v → Q (g v)) : (do pure (g (← a))).Writes s xs Q :=
  ends_bind.mpr (Ends.map h fun v _ h => ⟨h.1, h.2.1, hg v h.2.2⟩)

theorem writes_condition (text : String) :
    (do pure ((← lift (conditionText x.condition text)) ++ ";")).Writes s [x] (· = x.guardedText text ++ ";") := by
  rw [x.conditionText_eq]
  cases hshort : x.isShort with
  | true => exact ⟨rfl, forall_mem_singleton.mpr hshort, rfl⟩
  | false => exact ⟨rfl, rfl, x, mem_singleton_self x, hshort⟩

/-- An instruction without a body is written as its line, if it has a form with its controls and finite parameters. -/
theorem writes_line_of_form (hx : s.instruction? i = some x) {d : Circuit} (hd : s.circuit? x.circuit = some d)
    (hleaf : x.isComposite = false) (hform : x.HasForm d.library)
    (hfinite : x.isAtomic → ∀ p ∈ x.params, p.isFinite) (hbarrier : x.isBarrier → x.condition = none) :
    (instructionText (N + 1) i).Writes s [x] (· = x.line d.library) := by
  rw [instructionText]
  refine (returns_instruction hx).ends_bind.mpr ?_
  unfold Instruction.line
  cases hop : x.operation with
  | composite name body flag => exact absurd_leaf hleaf hop
  | atomic f =>
    obtain ⟨g, hg⟩ := Option.isSome_iff_exists.mp (hform f hop)
    have hwritten : (writtenName x f).Returns s g.name s := by
      refine (returns_circuit hd).bind ?_
      dsimp only
      rw [controlledFamily_eq_ok.mpr hg]
      rfl
    refine hwritten.ends_bind.mpr ?_
    dsimp only
    rw [callOnBits, mapM_realText (hfinite (by rw [Instruction.isAtomic, hop])),
      Instruction.writtenAs_of_controlledBy hop hg]
    exact writes_condition _
  | measure => exact writes_condition _
  | barrier =>
    have hshort := Instruction.isShort_of_none (hbarrier (by rw [Instruction.isBarrier, hop]))
    exact ⟨rfl, forall_mem_singleton.mpr hshort, rfl⟩

theorem writes_line (hs : s.Sound lib lost loose) (hi : s.Member lost loose c i)
    (hx : s.instruction? i = some x) (hleaf : x.isComposite = false) (hform : x.HasForm lib) :
    (instructionText (N + 1) i).Writes s [x] (· = x.line lib) := by
  obtain ⟨y, hy, -, d, hd, -⟩ := hi.fits
  cases hx.symm.trans hy
  obtain rfl := hs.library _ d hd
  refine writes_line_of_form hx hd hleaf hform (fun hatomic => hs.finite i x hx hatomic fun _ h => h ▸ hs.regular)
    (hs.proper i x hi.kept hx).condition_of_isBarrier

theorem isComposite_of_element (h : s.element i = .leaf x) : x.isComposite = false := by
  unfold Store.element at h
  split at h
  · split at h
    · cases h
    · next hleaf =>
      cases h
      exact Bool.not_eq_true _ ▸ hleaf
  · cases h

theorem isComposite_of_expand (h : s.expand n (s.element i) = some xs) : ∀ x ∈ xs, x.isComposite = false := by
  induction n generalizing i xs with
  | zero =>
    cases helement : s.element i with
    | gate k =>
      rw [helement] at h
      cases h
    | leaf x =>
      rw [helement] at h
      cases h
      exact forall_mem_singleton.mpr (isComposite_of_element helement)
  | succ n ih =>
    cases helement : s.element i with
    | gate k =>
      rw [helement] at h
      obtain ⟨F, hF, -⟩ := Option.bind_eq_some_iff.mp h
      obtain ⟨y, name, body, flag, -, -, rfl⟩ := Store.exists_of_face hF
      rw [Store.expand_gate hF] at h
      obtain ⟨parts, hparts, rfl⟩ := Store.expandAll_eq_some.mp h
      intro x hx
      obtain ⟨part, hpart, hx⟩ := mem_flatten.mp hx
      obtain ⟨e, he, hexpand⟩ := exists_of_forall₂ hparts part hpart
      obtain ⟨j, -, rfl⟩ := mem_map.mp he
      exact ih hexpand x hx
    | leaf x =>
      rw [helement] at h
      cases h
      exact forall_mem_singleton.mpr (isComposite_of_element helement)

/-- The texts of some places are groups of lines. -/
theorem writes_groups {is : List InstructionId} {f : InstructionId → Action String}
    (hf : ∀ i ∈ is, ∀ part, s.expand n (s.element i) = some part → (∀ x ∈ part, x.HasForm lib) →
      (f i).Writes s part (· = join "\n" (part.map (Instruction.line lib))))
    (h : s.expandAll n (is.map s.element) = some xs) (hform : ∀ x ∈ xs, x.HasForm lib) :
    (is.mapM f).Writes s xs fun texts => ∃ groups : List (List String), texts = groups.map (join "\n") ∧
      groups.flatten = xs.map (Instruction.line lib) ∧ ∀ ls ∈ groups, ∀ l ∈ ls, l.isEmpty = false := by
  obtain ⟨parts, hparts, rfl⟩ := Store.expandAll_eq_some.mp h
  rw [forall₂_map_left_iff] at hparts
  clear h
  induction hparts with
  | nil => exact ⟨rfl, forall_mem_nil _, [], rfl, rfl, forall_mem_nil _⟩
  | @cons i part is parts hpart hparts ih =>
    rw [flatten_cons, forall_mem_append] at hform
    rw [forall_mem_cons] at hf
    rw [mapM_cons]
    refine ends_bind.mpr (Ends.imp (hf.1 part hpart hform.1) ?_ ?_)
    · rintro text t ⟨rfl, hshort, rfl⟩
      refine ends_bind.mpr (Ends.imp (ih hf.2 hform.2) ?_ ?_)
      · rintro texts t ⟨rfl, hshort', groups, rfl, hflat, hlines⟩
        refine ⟨rfl, forall_mem_append.mpr ⟨hshort, hshort'⟩, part.map (Instruction.line lib) :: groups, rfl, ?_,
          forall_mem_cons.mpr ⟨fun l hl => ?_, hlines⟩⟩
        · rw [flatten_cons, hflat, flatten_cons, map_append]
        · obtain ⟨y, hy, rfl⟩ := mem_map.mp hl
          exact Instruction.isEmpty_line (isComposite_of_expand hpart y hy)
      · rintro e t ⟨rfl, he, x, hx, hlong⟩
        exact ⟨rfl, he, x, mem_append_right _ hx, hlong⟩
    · rintro e t ⟨rfl, he, x, hx, hlong⟩
      exact ⟨rfl, he, x, mem_append_left _ hx, hlong⟩

/-- What stands below a place is written line by line. -/
theorem writes_instructionText (hs : s.Sound lib lost loose) (hi : s.Member lost loose c i)
    (h : s.expand n (s.element i) = some xs) (hform : ∀ x ∈ xs, x.HasForm lib) (hN : n ≤ N) :
    (instructionText (N + 1) i).Writes s xs (· = join "\n" (xs.map (Instruction.line lib))) := by
  induction n generalizing i c N xs with
  | zero =>
    obtain ⟨x, hx, -⟩ := hi.fits
    rcases Store.element_cases hx with ⟨F, -, hgate⟩ | ⟨hleaf, helement⟩
    · rw [hgate] at h
      cases h
    · rw [helement] at h
      cases h
      exact writes_line hs hi hx hleaf (hform x mem_cons_self)
  | succ n ih =>
    obtain ⟨x, hx, -⟩ := hi.fits
    rcases Store.element_cases hx with ⟨F, hF, hgate⟩ | ⟨hleaf, helement⟩
    · obtain ⟨N, rfl⟩ := Nat.exists_eq_add_one.mpr (Nat.zero_lt_of_lt hN)
      obtain ⟨y, name, body, flag, hy, hop, rfl⟩ := Store.exists_of_face hF
      cases hx.symm.trans hy
      rw [hgate, Store.expand_gate hF] at h
      have hbody := fun j (hj : j ∈ body) => (hs.part hi.kept hx hop j hj).toMember
      rw [instructionText]
      refine (returns_instruction hx).ends_bind.mpr ?_
      rw [hop]
      refine (writes_groups (f := instructionText (N + 1))
        (fun j hj part hpart hform => ih (hbody j hj) hpart hform (Nat.le_of_succ_le_succ hN)) h hform).map ?_
      rintro _ ⟨groups, rfl, hflat, hlines⟩
      have hjoin := @join_append_joins "\n" [] groups hlines
      rw [nil_append, nil_append, hflat] at hjoin
      exact hjoin
    · rw [helement] at h
      cases h
      exact writes_line hs hi hx hleaf (hform x mem_cons_self)

/-- The lines of a circuit: its header, its registers, and a line for each instruction of the flattened circuit. -/
def circuitLines (lib : Library) (regs : List Register) (xs : List Instruction) : List String :=
  ["OPENQASM 2.0;", includeText "qelib1.inc"] ++ regs.map Register.text ++ xs.map (Instruction.line lib)

/-- A circuit that can be flattened is written line by line, if its gates have forms with their controls. -/
theorem writes_circuitText (hs : s.Sound lib lost loose) {d : Circuit} (hd : s.circuit? c = some d)
    (h : s.flattened c = some xs) (hform : ∀ x ∈ xs, x.HasForm lib) :
    (circuitText c).Writes s xs (· = join "\n" (circuitLines lib d.registers xs) ++ "\n") := by
  rw [Store.flattened_of_some hd] at h
  refine (returns_circuit hd).ends_bind.mpr (ends_bind.mpr (ends_depth.mpr ?_))
  refine (writes_groups (f := instructionText (s.instructions.size + 1)) (fun i hi part hpart hform =>
    writes_instructionText hs (hs.data c d hd i hi) hpart hform (Nat.le_refl _)) h hform).map ?_
  rintro _ ⟨groups, rfl, hflat, hlines⟩
  rw [join_append_joins _ hlines, hflat]
  rfl

/-- The text of a circuit only depends on its registers and on what it is when it is flattened. -/
theorem result_circuitText (hs : s.Sound lib lost loose) {d : Circuit} (hd : s.circuit? c = some d)
    (h : s.flattened c = some xs) (hform : ∀ x ∈ xs, x.HasForm lib) : ((circuitText c).outcome s).1 =
      showing (xs.all Instruction.isShort) (join "\n" (circuitLines lib d.registers xs) ++ "\n") := by
  have hwrites := writes_circuitText hs hd h hform
  unfold Writes Ends at hwrites
  rcases hrun : (circuitText c).outcome s with ⟨_ | text, t⟩
  all_goals rw [hrun] at hwrites
  · obtain ⟨-, rfl, x, hx, hlong⟩ := hwrites
    rw [all_eq_false.mpr ⟨x, hx, by rw [hlong]; decide⟩]
    rfl
  · obtain ⟨-, hshort, rfl⟩ := hwrites
    rw [all_eq_true.mpr hshort]
    rfl

end Action

namespace Store

variable {lib : Library} {lost loose : Set InstructionId} {s : Store} {c : CircuitId}

/-- A circuit in which no gate contains itself can be flattened. -/
theorem flattened_of_isNested (hs : s.Sound lib lost loose) (hc : s.IsNested c) {d : Circuit}
    (hd : s.circuit? c = some d) : ∃ xs, s.flattened c = some xs ∧ ∀ x ∈ xs, x.IsProper lib := by
  rw [flattened_of_some hd]
  refine expandAll_of_nests fun e he => ?_
  obtain ⟨i, hi, rfl⟩ := mem_map.mp he
  exact nests_of_isNested hs hc (.data hd hi) fun j x hj hx _ => hs.proper j x (hs.member_of_within hj).kept hx

/-- Where inverses can be controlled, all gates have a form with their controls. -/
theorem hasForm_of_flattened (hlib : lib.IsAligned) (hs : s.Sound lib lost loose) {xs : List Instruction}
    (h : s.flattened c = some xs) : ∀ x ∈ xs, x.HasForm lib := by
  obtain ⟨d, hd, -⟩ := Option.bind_eq_some_iff.mp h
  obtain ⟨ys, hys, hproper⟩ := flattened_of_isNested hs (isNested_of_flattened (by rw [h]; rfl)) hd
  cases h.symm.trans hys
  intro x hx f hop
  have hx := hproper x hx
  rw [Instruction.IsProper, hop] at hx
  exact hx.2.2.2.2 hlib

end Store

end QasmCircuit
