import QasmCircuit.Proofs.Program.Resolved

/-!
# What an expression reads

The value of a tree depends on the values of its names alone, whatever the tree looks like. Evaluation goes on below
the nodes that it knows, and the names are collected below all nodes but those of functions, which have no value
anyway. So a parameter without names can be replaced by its value, and in the body of a gate all names are bound.

> `Tree.evaluate_reads_names`: evaluation reads the parameters that a tree names, and no others.
-/

namespace QasmCircuit

open Outcome Source List

namespace Tree

variable {env env' : Env} {child : Tree} {children : List Tree} {label name : String}

theorem lookup_congr (h : name ≠ "pi" → env.lookup name = env'.lookup name) (token : Tree) :
    lookup env token name = lookup env' token name := by
  unfold lookup
  split
  · rfl
  · next hname => rw [h hname]

theorem mem_namesIn (hchild : child ∈ children) (hlabel : child.hasLabel "func_name" = false)
    (hname : name ∈ child.names) : name ∈ namesIn children := by
  induction children with
  | nil => cases hchild
  | cons first rest ih =>
    rw [namesIn, mem_append]
    rcases mem_cons.mp hchild with rfl | hrest
    · rw [hlabel]
      exact Or.inl hname
    · exact Or.inr (ih hrest)

theorem evaluate_functionName {t : Tree} (h : t.hasLabel "func_name") (env : Env) :
    t.evaluate env = failAt (.expression (.unsupported "func_name")) t.position := by
  cases t with
  | node label p children =>
    cases eq_of_beq h
    unfold evaluate
    simp only [show Shape.ofLabel "func_name" = .other from rfl]
  | _ => cases h

/-- Two environments agree on some names. -/
def Env.AgreeOn (env env' : Env) (names : List String) : Prop := ∀ name ∈ names, env.lookup name = env'.lookup name

theorem shape_reference : Shape.ofLabel label = .reference ↔ label = "param_ref" := by
  constructor
  · intro h
    unfold Shape.ofLabel at h
    grind
  · rintro rfl
    rfl

/-- What stands below a node has the same value, if it is read by itself. -/
theorem evaluate_child {p : Option Position} (h : env.AgreeOn env' (node label p children).names)
    (hlabel : Shape.ofLabel label ≠ .reference)
    (ih : env.AgreeOn env' child.names → child.evaluate env = child.evaluate env') (hchild : child ∈ children) :
    child.evaluate env = child.evaluate env' := by
  rw [Ne, shape_reference] at hlabel
  rw [names, if_neg hlabel] at h
  by_cases hfunction : child.hasLabel "func_name"
  · rw [evaluate_functionName hfunction, evaluate_functionName hfunction]
  · exact ih fun name hname => h name (mem_namesIn hchild (Bool.eq_false_iff.mpr hfunction) hname)

/-- The names of a tree bound what its evaluation reads. -/
theorem evaluate_congr (t : Tree) (h : env.AgreeOn env' t.names) : t.evaluate env = t.evaluate env' := by
  fun_induction evaluate env t with
  | case3 text line col _ =>
    unfold evaluate
    refine lookup_congr (fun hpi => h text ?_) _
    simp [names, hpi]
  | case7 label p kind text line col hshape =>
    simp only [evaluate, hshape]
    refine lookup_congr (fun _ => h text ?_) _
    rw [names, if_pos (shape_reference.mp hshape)]
    exact mem_singleton_self text
  | case9 label p op left right hshape here ihl ihr =>
    rw [evaluate_child h (by simp [hshape]) ihl (by simp), evaluate_child h (by simp [hshape]) ihr (by simp)]
    conv_rhs => unfold evaluate
    simp only [hshape, here]
  | case11 label p operand hshape ih =>
    simp only [evaluate, hshape, evaluate_child h (by simp [hshape]) ih (by simp)]
  | case13 label p function argument hshape here ih =>
    simp only [evaluate, hshape, evaluate_child h (by simp [hshape]) ih (by simp), here]
  | case15 label p child hshape ih =>
    simp only [evaluate, hshape, evaluate_child h (by simp [hshape]) ih (by simp)]
  | _ => simp_all [evaluate] <;> rfl

theorem evaluate_of_paramNames {t : Tree} (h : ∀ names, t.paramNames = .ok names → env.AgreeOn env' names) :
    t.evaluate env = t.evaluate env' := by
  cases t with
  | datum d => rfl
  | _ => exact evaluate_congr _ fun n hn => h _ rfl n (Program.mem_sortedNames.mpr hn)

/-- A tree has the value of the parameter that it becomes, whatever its names are bound to. -/
theorem resolve_parameter {g : Program.GateScope} {tree : Tree} {t : Term}
    (h : Program.parameter (some g) tree = .ok t) (env : Env) : t.resolve env = tree.evaluate env := by
  obtain ⟨names, hnames, h⟩ := bind_eq_ok.mp h
  split at h
  · exact absurd h Program.failAt_ne_ok
  · split at h
    · next hempty =>
      obtain ⟨x, hx, h⟩ := bind_eq_ok.mp h
      cases h
      refine hx.symm.trans (evaluate_of_paramNames fun names' hnames' n hn => ?_)
      rw [Except.ok.inj (hnames'.symm.trans hnames), isEmpty_iff.mp hempty] at hn
      cases hn
    · obtain ⟨text, -, h⟩ := bind_eq_ok.mp h
      cases h
      rfl

end Tree

/-- A fault that is not about a name without a value. -/
def Fault.KnowsNames (e : Fault) : Prop :=
  ∀ name position cause, e ≠ .problem (.expression (.unknownIdentifier name)) position cause

theorem Datum.fails_toReal (d : Datum) : Fails Fault.KnowsNames d.toReal := by
  unfold toReal
  split
  case h_2 | h_4 =>
    split
    · exact fails_ok
    · exact fails_error (by simp [Fault.KnowsNames])
  case h_5 => exact fails_error (by simp [Fault.KnowsNames])
  all_goals exact fails_ok

/-- A parameter over bound names has a value, or it has none for another reason than its names. -/
theorem Term.IsParam.fails_resolve {names : List String} {t : Term} (h : t.IsParam names) {env : Tree.Env}
    (henv : ∀ a ∈ names, ∃ d, env.lookup a = some d) : Fails Fault.KnowsNames (t.resolve env) := by
  cases h with
  | value x => exact fails_ok
  | symbolic hs hnames =>
    refine Expr.fails_evaluate hs (fun a ha _ => ?_) fun reason position hreason name position' cause heq => ?_
    · obtain ⟨d, hd⟩ := henv a (hnames a ha)
      exact Tree.fails_lookup hd _ d.fails_toReal
    · cases heq
      exact hreason

/-- What the body of a gate applies is given parameters of this gate. -/
theorem Source.BodyStatement.Resolves.params {lib : Library} {p : Program} {g : Program.GateScope}
    {keywords : List Keyword} {s : BodyStatement} (hs : s.Spelled keywords) {n : Node} (h : s.Resolves lib p g n)
    {ts : List Term} (hts : n.params = .ok ts) :
    ∀ t ∈ ts, t.IsParam g.params ∧ ∃ tree, Program.parameter (some g) tree = .ok t := by
  have hall : ∀ {es : List Expr} {ts : List Term}, (∀ e ∈ es, e.Spelled) → ParamsResolve (some g) es ts →
      ∀ t ∈ ts, t.IsParam g.params ∧ ∃ tree, Program.parameter (some g) tree = .ok t :=
    fun hes hts t ht => ⟨hts.isParam hes t ht, (exists_of_forall₂ hts t ht).elim fun e he => ⟨e.toTree, he.2⟩⟩
  cases h with
  | barrier => cases hts
  | operation hop =>
    cases hop with
    | unitary hparams _ =>
      cases hts
      refine hall ?_ hparams
      rw [forall_mem_cons, forall_mem_cons, forall_mem_singleton]
      exact ⟨hs.1, hs.2.1, hs.2.2.1⟩
    | controlledNot => cases hts; exact forall_mem_nil _
    | @call name params operands ts' _ hparams _ =>
      cases hts
      refine hall (fun e he => ?_) hparams
      cases params with
      | none => exact absurd he not_mem_nil
      | some ps => exact hs.2.1 ps rfl e he

/-- The names of a tree bound what evaluation reads: with the same values for these, it gives the same value or the
same fault. So a parameter in the body of a gate has the value of its expression, with whatever parameters bound, and
a number is this value for all of them. In a program that was read all names in it are parameters of the gate. -/
theorem Tree.evaluate_reads_names :
    (∀ (t : Tree) (env env' : Env), (∀ names, t.paramNames = .ok names → env.AgreeOn env' names) →
      t.evaluate env = t.evaluate env') ∧
    (∀ (g : Program.GateScope) (tree : Tree) (t : Term), Program.parameter (some g) tree = .ok t →
      (∀ env, t.resolve env = tree.evaluate env) ∧ ∀ d, t = .value d → ∀ env, tree.evaluate env = d.toReal) ∧
    ∀ (lib : Library) (text : String) (p : Program), Program.parse lib text = .ok p → ∀ g ∈ p.gates, ∀ n ∈ g.body,
      ∀ ts, n.params = .ok ts → ∀ t ∈ ts,
        (∃ tree, Program.parameter (some ⟨g.name, g.params, g.args⟩) tree = .ok t) ∧
        ∀ env : Env, (∀ a ∈ g.params, ∃ d, env.lookup a = some d) → ∀ name position cause,
          t.resolve env ≠ .error (.problem (.expression (.unknownIdentifier name)) position cause) := by
  refine ⟨fun t env env' h => evaluate_of_paramNames h, fun g tree t h => ⟨resolve_parameter h, ?_⟩, ?_⟩
  · rintro d rfl env
    exact (resolve_parameter h env).symm
  intro lib text p hp g hg n hn ts hts t ht
  obtain ⟨before, after, hsplit⟩ := append_of_mem hg
  have hparams := Program.gates_of_parse (P := fun _ g => ∀ n ∈ g.body, ∀ ts, n.params = .ok ts → ∀ t ∈ ts,
    t.IsParam g.params ∧ ∃ tree, Program.parameter (some ⟨g.name, g.params, g.args⟩) tree = .ok t)
    (fun gates d g hd hdeclares => ?_) hp before g after hsplit n hn ts hts t ht
  · exact ⟨hparams.2, fun env henv name position cause herror =>
      hparams.1.fails_resolve henv _ herror name position cause rfl⟩
  · cases hdeclares with
    | gate _ _ _ hbody =>
      intro n hn ts hts
      obtain ⟨s, hs, hresolves⟩ := exists_of_forall₂ hbody n hn
      obtain ⟨keywords, hspelled⟩ := Program.bodySpelled_forall hd.2.2.2 s hs
      exact hresolves.params hspelled hts

/-- A parameter of a gate that names one of its two parameters: it is read whatever value the other one has. -/
theorem Tree.evaluate_reads_names_half :
    let tree := (Expr.binary .origin .div (.param .origin "t") (.number .origin "2")).toTree
    tree.evaluate [("t", .int 3)] = tree.evaluate [("u", .int 1), ("t", .int 3)] ∧
    (∃ t, Program.parameter (some ⟨"g", ["t", "u"], ["a"]⟩) tree = .ok t ∧ ∀ env, t.resolve env = tree.evaluate env) ∧
    ∃ p, Program.parse ⟨[]⟩ "OPENQASM 2.0; gate g(t,u) a\x7bU(t/2,0,0) a;\x7d" = .ok p ∧ ∃ g ∈ p.gates, ∃ n ∈ g.body,
      ∃ ts, n.params = .ok ts ∧ ∃ t ∈ ts, ∀ env : Env, (∀ a ∈ g.params, ∃ d, env.lookup a = some d) →
        ∀ name position cause,
          t.resolve env ≠ .error (.problem (.expression (.unknownIdentifier name)) position cause) := by
  intro tree
  have hnames : tree.paramNames = .ok ["t"] := toOption_eq_some.mp (by decide +kernel)
  have hparam : (Program.parameter (some ⟨"g", ["t", "u"], ["a"]⟩) tree).toOption.isSome = true := by decide +kernel
  have hparse : (Program.parse ⟨[]⟩ "OPENQASM 2.0; gate g(t,u) a\x7bU(t/2,0,0) a;\x7d").toOption.any (fun p =>
      p.gates.any fun g => g.body.any fun n => n.params.toOption.any fun ts => !ts.isEmpty) = true := by
    decide +kernel
  refine ⟨evaluate_reads_names.1 tree _ _ fun names h => ?_, ?_, ?_⟩
  · cases hnames.symm.trans h
    exact forall_mem_singleton.mpr rfl
  · obtain ⟨t, ht⟩ := Option.isSome_iff_exists.mp hparam
    rw [toOption_eq_some] at ht
    exact ⟨t, ht, (evaluate_reads_names.2.1 _ tree t ht).1⟩
  · obtain ⟨p, hp, hgates⟩ := (Option.any_eq_true _ _).mp hparse
    obtain ⟨g, hg, hbody⟩ := any_eq_true.mp hgates
    obtain ⟨n, hn, hparams⟩ := any_eq_true.mp hbody
    obtain ⟨ts, hts, hne⟩ := (Option.any_eq_true _ _).mp hparams
    rw [toOption_eq_some] at hp hts
    obtain ⟨t, ht⟩ := exists_mem_of_ne_nil ts fun h => by cases h; cases hne
    exact ⟨p, hp, g, hg, n, hn, ts, hts, t, ht, (evaluate_reads_names.2.2 _ _ p hp g hg n hn ts hts t ht).2⟩

end QasmCircuit
