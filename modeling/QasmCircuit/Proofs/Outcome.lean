import Mathlib.Data.List.Forall2

/-!
# Computations that can fail

When a computation made of steps has a result: each of its steps has one. The lemmas turn a `do` block and
the loops over lists into plain statements about their steps.
-/

namespace QasmCircuit.Outcome

open List (Forall₂ mapM_cons mem_cons_self forall_mem_cons)

variable {ε α β : Type} {x : Except ε α} {b : β} {γ : Type} {R : α → β → Prop} {as : List α} {f : α → Except ε β}

theorem bind_eq_ok : (x >>= f) = .ok b ↔ ∃ a, x = .ok a ∧ f a = .ok b := by
  cases x with
  | error e => exact ⟨fun h => (nomatch h), fun ⟨_, h, _⟩ => (nomatch h)⟩
  | ok a => exact ⟨fun h => ⟨a, rfl, h⟩, fun ⟨_, h, hf⟩ => by cases h; exact hf⟩

theorem bind_of_error {e : ε} (h : x = .error e) (f : α → Except ε β) : x >>= f = .error e := by
  rw [h]
  rfl

theorem pure_eq_ok {a b : α} : (pure a : Except ε α) = .ok b ↔ a = b :=
  ⟨fun h => Except.ok.inj h, fun h => congrArg Except.ok h⟩

theorem map_eq_ok {f : α → β} : x.map f = .ok b ↔ ∃ a, x = .ok a ∧ f a = b := by
  cases x with
  | error e => exact ⟨fun h => (nomatch h), fun ⟨_, h, _⟩ => (nomatch h)⟩
  | ok a =>
    exact ⟨fun h => ⟨a, rfl, Except.ok.inj h⟩, fun ⟨_, h, hf⟩ => by cases h; exact congrArg Except.ok hf⟩

theorem toOption_eq_some {a : α} : x.toOption = some a ↔ x = .ok a := by
  cases x with
  | error e => simp [Except.toOption]
  | ok b => simp [Except.toOption]

/-- A step over each item of a list has a result if it has one for each item. -/
theorem mapM_eq_ok {bs : List β} : as.mapM f = .ok bs ↔ Forall₂ (fun a b => f a = .ok b) as bs := by
  induction as generalizing bs with
  | nil => rw [List.mapM_nil, pure_eq_ok, List.forall₂_nil_left_iff, eq_comm]
  | cons a as ih =>
    rw [mapM_cons, bind_eq_ok, List.forall₂_cons_left_iff]
    constructor
    · rintro ⟨b, hb, h⟩
      obtain ⟨rest, hrest, hbs⟩ := bind_eq_ok.mp h
      exact ⟨b, rest, hb, ih.mp hrest, (pure_eq_ok.mp hbs).symm⟩
    · rintro ⟨b, rest, hb, hrest, rfl⟩
      exact ⟨b, hb, bind_eq_ok.mpr ⟨rest, ih.mpr hrest, rfl⟩⟩

theorem exists_of_mapM_eq_error {e : ε} (h : as.mapM f = .error e) : ∃ a ∈ as, f a = .error e := by
  induction as with
  | nil => cases h
  | cons a as ih =>
    rw [mapM_cons] at h
    cases ha : f a with
    | error e' =>
      rw [ha] at h
      cases h
      exact ⟨a, mem_cons_self, ha⟩
    | ok b =>
      rw [ha] at h
      cases has : as.mapM f with
      | error e' =>
        rw [has] at h
        cases h
        obtain ⟨c, hc, hce⟩ := ih has
        exact ⟨c, List.mem_cons_of_mem a hc, hce⟩
      | ok bs =>
        rw [has] at h
        cases h

theorem mapM_eq_some {f : α → Option β} {bs : List β} :
    as.mapM f = some bs ↔ Forall₂ (fun a b => f a = some b) as bs := by
  induction as generalizing bs with
  | nil =>
    rw [List.mapM_nil, List.forall₂_nil_left_iff, eq_comm]
    exact Option.some_inj
  | cons a as ih =>
    rw [mapM_cons, List.forall₂_cons_left_iff]
    constructor
    · intro h
      obtain ⟨b, hb, hrest⟩ := Option.bind_eq_some_iff.mp h
      obtain ⟨rest, hrest, hbs⟩ := Option.bind_eq_some_iff.mp hrest
      exact ⟨b, rest, hb, ih.mp hrest, (Option.some.inj hbs).symm⟩
    · rintro ⟨b, rest, hb, hrest, rfl⟩
      exact Option.bind_eq_some_iff.mpr ⟨b, hb, Option.bind_eq_some_iff.mpr ⟨rest, ih.mpr hrest, rfl⟩⟩

theorem mapM_congr {f g : α → Option β} (h : ∀ a ∈ as, f a = g a) : as.mapM f = as.mapM g := by
  induction as with
  | nil => rfl
  | cons a as ih =>
    rw [forall_mem_cons] at h
    rw [mapM_cons, mapM_cons, h.1, ih h.2]

/-- A step that gives the image of what another one gives. -/
theorem mapM_eq_map_of_forall {f : α → Option β} {f' : α → Option γ} {h : β → γ}
    (hf : ∀ a ∈ as, f' a = (f a).map h) : as.mapM f' = (as.mapM f).map (List.map h) := by
  induction as with
  | nil => rfl
  | cons a as ih =>
    rw [forall_mem_cons] at hf
    rw [mapM_cons, mapM_cons, hf.1, ih hf.2]
    cases f a with
    | none => rfl
    | some b => cases as.mapM f <;> rfl

theorem mapM_eq_of_forall₂ {f : α → Option γ} {g : β → Option γ} {bs : List β}
    (h : Forall₂ (fun a b => f a = g b) as bs) : as.mapM f = bs.mapM g := by
  induction h with
  | nil => rfl
  | cons hab _ ih => rw [mapM_cons, mapM_cons, hab, ih]

theorem forall_mem_concat {P : α → Prop} {a : α} (has : ∀ b ∈ as, P b) (ha : P a) : ∀ b ∈ as ++ [a], P b :=
  List.forall_mem_append.mpr ⟨has, List.forall_mem_singleton.mpr ha⟩

theorem mapM_eq_none_of_forall {f : α → Option β} (hne : as ≠ []) (h : ∀ a ∈ as, f a = none) : as.mapM f = none := by
  cases as with
  | nil => exact absurd rfl hne
  | cons a as =>
    rw [mapM_cons, h a mem_cons_self]
    rfl

theorem mapM_toOption_eq_some {g : β → γ} {cs : List γ} :
    as.mapM (fun a => (f a).toOption.map g) = some cs ↔ ∃ bs, as.mapM f = .ok bs ∧ bs.map g = cs := by
  rw [mapM_eq_some]
  simp only [mapM_eq_ok]
  constructor
  · intro h
    induction h with
    | nil => exact ⟨[], .nil, rfl⟩
    | @cons a c as cs hac _ ih =>
      obtain ⟨bs, hbs, rfl⟩ := ih
      cases hfa : f a with
      | error e =>
        rw [hfa] at hac
        cases hac
      | ok b =>
        rw [hfa] at hac
        cases hac
        exact ⟨b :: bs, .cons hfa hbs, rfl⟩
  · rintro ⟨bs, hbs, rfl⟩
    induction hbs with
    | nil => exact .nil
    | cons hab _ ih =>
      refine .cons ?_ ih
      rw [hab]
      rfl

/-- Whatever stands in one of two lists that correspond has something beside it in the other one. -/
theorem exists_of_forall₂ {bs : List β} (h : Forall₂ R as bs) : ∀ b ∈ bs, ∃ a ∈ as, R a b := by
  induction h with
  | nil => exact List.forall_mem_nil _
  | cons hab _ ih =>
    rw [forall_mem_cons]
    refine ⟨⟨_, mem_cons_self, hab⟩, fun b hb => ?_⟩
    obtain ⟨a, ha, hr⟩ := ih b hb
    exact ⟨a, List.mem_cons_of_mem _ ha, hr⟩

theorem forall₂_imp_of_mem {S : α → β → Prop} {bs : List β} (h : Forall₂ R as bs)
    (hRS : ∀ a ∈ as, ∀ b, R a b → S a b) : Forall₂ S as bs := by
  induction h with
  | nil => exact .nil
  | cons hab _ ih =>
    rw [forall_mem_cons] at hRS
    exact .cons (hRS.1 _ hab) (ih hRS.2)

theorem maps_eq_iff {f : α → γ} {g : β → γ} {bs : List β} :
    as.map f = bs.map g ↔ Forall₂ (fun a b => f a = g b) as bs := by
  rw [← List.forall₂_eq_eq_eq, List.forall₂_map_left_iff, List.forall₂_map_right_iff]

theorem exists_forall₂ (h : ∀ a ∈ as, ∃ b, R a b) : ∃ bs, Forall₂ R as bs := by
  induction as with
  | nil => exact ⟨[], .nil⟩
  | cons a as ih =>
    rw [forall_mem_cons] at h
    obtain ⟨⟨b, hb⟩, hrest⟩ := h
    obtain ⟨bs, hbs⟩ := ih hrest
    exact ⟨b :: bs, .cons hb hbs⟩

/-- A step that is a function wherever it has a result. -/
theorem mapM_eq_ok_iff_map {P : α → Prop} {g : α → β} (h : ∀ a ∈ as, ∀ b, f a = .ok b ↔ P a ∧ g a = b) {bs : List β} :
    as.mapM f = .ok bs ↔ (∀ a ∈ as, P a) ∧ as.map g = bs := by
  rw [mapM_eq_ok]
  induction as generalizing bs with
  | nil =>
    rw [List.forall₂_nil_left_iff, List.map_nil]
    exact ⟨fun hbs => ⟨List.forall_mem_nil _, hbs.symm⟩, fun hbs => hbs.2.symm⟩
  | cons a as ih =>
    rw [List.forall₂_cons_left_iff, forall_mem_cons, List.map_cons]
    have hrest := fun bs => @ih (fun x hx => h x (List.mem_cons_of_mem a hx)) bs
    constructor
    · rintro ⟨b, rest, hb, hfollow, rfl⟩
      obtain ⟨ha, rfl⟩ := (h a mem_cons_self b).mp hb
      obtain ⟨has, rfl⟩ := (hrest rest).mp hfollow
      exact ⟨⟨ha, has⟩, rfl⟩
    · rintro ⟨⟨ha, has⟩, rfl⟩
      exact ⟨g a, as.map g, (h a mem_cons_self _).mpr ⟨ha, rfl⟩, (hrest _).mpr ⟨has, rfl⟩, rfl⟩

theorem forM_eq_ok {f : α → Except ε PUnit} : as.forM f = .ok () ↔ ∀ a ∈ as, f a = .ok () := by
  induction as with
  | nil => exact ⟨fun _ _ h => absurd h List.not_mem_nil, fun _ => rfl⟩
  | cons a as ih =>
    have hcons : (a :: as).forM f = f a >>= fun _ => as.forM f := rfl
    rw [hcons, bind_eq_ok, forall_mem_cons, ← ih]
    exact ⟨fun ⟨_, ha, h⟩ => ⟨ha, h⟩, fun ⟨ha, h⟩ => ⟨(), ha, h⟩⟩

end QasmCircuit.Outcome
