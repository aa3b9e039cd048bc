import PgRipple.Datalog.Coverage

/-!
# Rows that are instances

The converse of the coverage results. In a conjunctive rule whose atoms do not
repeat a variable, every row of a compiled join is an instance of the rule, with
negation judged in the stored triples. The restriction on repeated variables is
needed because the first table of a join has no `ON` clause, so `?x p ?x` in first
position is read as `?x p ?y`.
-/

namespace PgRipple.Datalog

open Storage Inference

/-- No variable occurs twice in the pattern. -/
structure Atom.Linear (a : Atom) : Prop where
  so : ∀ v, a.s = .var v → a.o ≠ .var v
  sg : ∀ v, a.s = .var v → a.g ≠ .var v
  og : ∀ v, a.o = .var v → a.g ≠ .var v

/-- A conjunctive rule without repeated variables in an atom. -/
structure Rule.Plain (scope : GraphScope) (r : Rule) : Prop extends r.Conjunctive scope where
  linear : ∀ a ∈ r.positiveAtoms, a.Linear

/-- The second plan extends the first. -/
structure Plan.Extends (plan plan' : Plan) : Prop where
  conds : ∀ c ∈ plan.from_.flatMap FromItem.on ++ plan.where_,
    c ∈ plan'.from_.flatMap FromItem.on ++ plan'.where_
  vars : ∀ v e, plan.varMap.colRef v = some e → plan'.varMap.colRef v = some e

theorem Plan.Extends.refl (plan : Plan) : plan.Extends plan := ⟨fun _ h => h, fun _ _ h => h⟩

theorem Plan.Extends.trans {plan plan' plan'' : Plan} (h : plan.Extends plan')
    (h' : plan'.Extends plan'') : plan.Extends plan'' :=
  ⟨fun c hc => h'.conds c (h.conds c hc), fun v e he => h'.vars v e (h.vars v e he)⟩

section Plans

variable {ctx : Context} {env : List Key} {ρ : Valuation} {plan : Plan} {source : Source} {a : Atom}
  {k : Key}

theorem VarMap.colRef_bindTerm_eq {vm : VarMap} {t : Term} {e e' : Expr} {v : String}
    (h : vm.colRef v = some e') : (vm.bindTerm t e).colRef v = some e' := by
  cases t with
  | var w => exact VarMap.colRef_bind_of_some h
  | _ => exact h

theorem VarMap.colRef_bindAtom_eq {vm : VarMap} {t : Nat} {e : Expr} {v : String}
    (h : vm.colRef v = some e) : (vm.bindAtom t a).colRef v = some e :=
  colRef_bindTerm_eq (colRef_bindTerm_eq (colRef_bindTerm_eq h))

theorem varMap_addAtom :
    (plan.addAtom ctx source a []).varMap = plan.varMap.bindAtom plan.nextAlias a := by
  simp only [Plan.addAtom]
  split <;> rfl

theorem extends_addAtom : plan.Extends (plan.addAtom ctx source a []) where
  conds := by
    intro c hc
    simp only [Plan.addAtom]
    split
    · simp only [List.mem_append, List.flatMap_append] at hc ⊢
      exact hc.imp (fun h => .inl h) fun h => .inl (.inl h)
    · simp only [List.mem_append, List.flatMap_append] at hc ⊢
      exact hc.imp (fun h => .inl h) fun h => .inl h
  vars := by
    intro v e h
    rw [varMap_addAtom]
    exact VarMap.colRef_bindAtom_eq h

/-- Add atoms one by one. -/
def Plan.addAtoms (ctx : Context) (plan : Plan) (items : List (Source × Atom)) : Plan :=
  items.foldl (fun plan item => plan.addAtom ctx item.1 item.2 []) plan

theorem extends_addAtoms {items : List (Source × Atom)} :
    plan.Extends (plan.addAtoms ctx items) := by
  induction items generalizing plan with
  | nil => exact .refl plan
  | cons item items ih => exact extends_addAtom.trans ih

theorem nextAlias_addAtoms {items : List (Source × Atom)} :
    (plan.addAtoms ctx items).nextAlias = plan.nextAlias + items.length := by
  induction items generalizing plan with
  | nil => rfl
  | cons item items ih =>
    have rest := @ih (plan.addAtom ctx item.1 item.2 [])
    rw [nextAlias_addAtom] at rest
    rw [List.length_cons]
    change ((plan.addAtom ctx item.1 item.2 []).addAtoms ctx items).nextAlias = _
    omega

theorem sources_addAtoms {items : List (Source × Atom)} :
    (plan.addAtoms ctx items).from_.map FromItem.source =
      plan.from_.map FromItem.source ++ items.map Prod.fst := by
  induction items generalizing plan with
  | nil => simp [Plan.addAtoms]
  | cons item items ih =>
    obtain ⟨on, hon⟩ := from_addAtom ctx plan item.1 item.2 []
    have rest := @ih (plan.addAtom ctx item.1 item.2 [])
    rw [hon] at rest
    change ((plan.addAtom ctx item.1 item.2 []).addAtoms ctx items).from_.map FromItem.source = _
    simpa using rest

theorem eq_of_holds_eq {l r : Expr} {x y : Int} (h : ctx.holds env (.eq l r) = true)
    (hl : l.eval env = some x) (hr : r.eval env = some y) : x = y := by
  simpa [Cond.eq, Database.holds, hl, hr, CompareOp.test] using h

theorem accepts_of_positionCond {vm : VarMap} (sound : vm.Sound env ρ) {t : Nat} {c : Col}
    {u : Term} (row : env[t]? = some k) (bound : ∀ v, u = .var v → (vm.colRef v).isSome)
    (h : ∀ x ∈ positionCond vm t c u, ctx.holds env x = true) : u.Accepts ρ (c.of k) := by
  cases u with
  | var v =>
    obtain ⟨e, he⟩ := Option.isSome_iff_exists.mp (bound v rfl)
    have holds := h (.eq (.col t c) e) (by simp [positionCond, he])
    exact (eq_of_holds_eq holds (eval_col row) (sound v e he)).symm
  | const id =>
    have holds := h (.eq (.col t c) (.const id)) (by simp [positionCond])
    exact (eq_of_holds_eq holds (eval_col row) rfl).symm
  | wildcard => trivial
  | defaultGraph => trivial

theorem acceptsGraph_of_scopeCond {t : Nat} (row : env[t]? = some k)
    (h : ∀ x ∈ scopeCond ctx t, ctx.holds env x = true) :
    ctx.settings.ruleGraphScope = .default → k.g = 0 := by
  intro scope
  have holds := h (.eq (.col t .g) (.const 0)) (by simp [scopeCond, scope])
  exact eq_of_holds_eq holds (eval_col row) rfl

/-- A joined row matches an atom after the first. -/
theorem graph_of_buildJoinCond {vm : VarMap} {t : Nat}
    (h : ∀ x ∈ buildJoinCond ctx vm t a, ctx.holds env x = true) :
    ∀ x ∈ (match a.g with
      | .var _ | .const _ => positionCond vm t .g a.g
      | _ => scopeCond ctx t), ctx.holds env x = true :=
  fun x hx => h x (List.mem_append.mpr (.inr hx))

theorem matches_of_buildJoinCond {vm : VarMap} (sound : vm.Sound env ρ) {t : Nat} {p : TermId}
    (row : env[t]? = some k) (hp : a.p = .const p)
    (bound : ∀ v, a.Binds v → (vm.colRef v).isSome)
    (h : ∀ x ∈ buildJoinCond ctx vm t a, ctx.holds env x = true) :
    a.Matches ctx.settings.ruleGraphScope ρ (k.quad p) := by
  have left (x : Cond) (hx : x ∈ positionCond vm t .s a.s ++ positionCond vm t .o a.o) :
      ctx.holds env x = true := h x (List.mem_append.mpr (.inl hx))
  refine ⟨?_, ?_, ?_, ?_⟩
  · exact accepts_of_positionCond (c := .s) sound row (fun v hv => bound v (.inl hv))
      fun x hx => left x (List.mem_append.mpr (.inl hx))
  · rw [hp]
    rfl
  · exact accepts_of_positionCond (c := .o) sound row (fun v hv => bound v (.inr (.inl hv)))
      fun x hx => left x (List.mem_append.mpr (.inr hx))
  · have graph := graph_of_buildJoinCond h
    cases term : a.g with
    | var v =>
      rw [term] at graph
      exact accepts_of_positionCond (u := .var v) sound row
        (fun w hw => bound w (.inr (.inr (term.trans hw)))) graph
    | const id =>
      rw [term] at graph
      exact accepts_of_positionCond (u := .const id) sound row (fun w hw => by cases hw) graph
    | wildcard =>
      rw [term] at graph
      exact acceptsGraph_of_scopeCond row graph
    | defaultGraph =>
      rw [term] at graph
      exact acceptsGraph_of_scopeCond row graph

/-- A position of the first table, whose variable is named after it. -/
theorem accepts_of_constCond {vm : VarMap} (sound : vm.Sound env ρ) {t : Nat} {c : Col} {u : Term}
    (row : env[t]? = some k) (named : ∀ v, u = .var v → vm.colRef v = some (.col t c))
    (h : ∀ x ∈ constCond t c u, ctx.holds env x = true) : u.Accepts ρ (c.of k) := by
  cases u with
  | var v =>
    have value := sound v _ (named v rfl)
    rw [eval_col row] at value
    exact (Option.some.inj value).symm
  | const id =>
    have holds := h (.eq (.col t c) (.const id)) (by simp [constCond])
    exact (eq_of_holds_eq holds (eval_col row) rfl).symm
  | wildcard => trivial
  | defaultGraph => trivial

/-- The columns that the first atom names. -/
theorem colRef_bindAtom_nil (linear : a.Linear) (v : String) :
    (a.s = .var v → (VarMap.bindAtom [] 0 a).colRef v = some (.col 0 .s)) ∧
      (a.o = .var v → (VarMap.bindAtom [] 0 a).colRef v = some (.col 0 .o)) ∧
      (a.g = .var v → (VarMap.bindAtom [] 0 a).colRef v = some (.col 0 .g)) := by
  have fresh {vm : VarMap} {t : Term} {e : Expr} (ne : t ≠ .var v) :
      (vm.bindTerm t e).colRef v = vm.colRef v := by
    cases t with
    | var w =>
      have : v ≠ w := fun same => ne (by rw [same])
      simp [VarMap.bindTerm, VarMap.colRef_bind, this]
    | _ => rfl
  have named {vm : VarMap} {e : Expr} (unbound : vm.colRef v = none) :
      (vm.bindTerm (.var v) e).colRef v = some e := by
    simp [VarMap.bindTerm, VarMap.colRef_bind, unbound]
  refine ⟨?_, ?_, ?_⟩
  · intro hs
    refine VarMap.colRef_bindTerm_eq (VarMap.colRef_bindTerm_eq ?_)
    rw [hs]
    exact named rfl
  · intro ho
    refine VarMap.colRef_bindTerm_eq ?_
    rw [ho]
    refine named ?_
    rw [fresh fun hs => linear.so v hs ho]
    rfl
  · intro hg
    unfold VarMap.bindAtom
    rw [hg]
    refine named ?_
    rw [fresh fun ho => linear.og v ho hg, fresh fun hs => linear.sg v hs hg]
    rfl

/-- A joined row matches the first atom. -/
theorem graph_of_atomConds (h : ∀ x ∈ atomConds ctx 0 a, ctx.holds env x = true) :
    ∀ x ∈ (match a.g with
      | .var _ => []
      | .const id => [Cond.eq (.col 0 .g) (.const id)]
      | _ => scopeCond ctx 0), ctx.holds env x = true :=
  fun x hx => h x (List.mem_append.mpr (.inr hx))

theorem matches_of_atomConds (sound : VarMap.Sound (VarMap.bindAtom [] 0 a) env ρ)
    (linear : a.Linear) {p : TermId} (row : env[0]? = some k) (hp : a.p = .const p)
    (h : ∀ x ∈ atomConds ctx 0 a, ctx.holds env x = true) :
    a.Matches ctx.settings.ruleGraphScope ρ (k.quad p) := by
  have left (x : Cond) (hx : x ∈ constCond 0 .s a.s ++ constCond 0 .o a.o) :
      ctx.holds env x = true := h x (List.mem_append.mpr (.inl hx))
  refine ⟨?_, ?_, ?_, ?_⟩
  · exact accepts_of_constCond (c := .s) sound row (fun v => (colRef_bindAtom_nil linear v).1)
      fun x hx => left x (List.mem_append.mpr (.inl hx))
  · rw [hp]
    rfl
  · exact accepts_of_constCond (c := .o) sound row (fun v => (colRef_bindAtom_nil linear v).2.1)
      fun x hx => left x (List.mem_append.mpr (.inr hx))
  · have graph := graph_of_atomConds h
    cases term : a.g with
    | var v =>
      have value := sound v _ ((colRef_bindAtom_nil linear v).2.2 term)
      rw [eval_col row] at value
      exact (Option.some.inj value).symm
    | const id =>
      rw [term] at graph
      exact (eq_of_holds_eq (graph _ (List.mem_singleton_self _)) (eval_col row) rfl).symm
    | wildcard =>
      rw [term] at graph
      exact acceptsGraph_of_scopeCond row graph
    | defaultGraph =>
      rw [term] at graph
      exact acceptsGraph_of_scopeCond row graph

/-- In a plan for several atoms, the row of each alias matches its atom. Only the first one
must not repeat a variable. -/
theorem matches_of_addAtoms {pre post : List (Source × Atom)} {plan' : Plan} {p : TermId}
    (larger : (Plan.empty.addAtoms ctx (pre ++ (source, a) :: post)).Extends plan')
    (conds : ∀ c ∈ plan'.from_.flatMap FromItem.on ++ plan'.where_, ctx.holds env c = true)
    (sound : plan'.varMap.Sound env ρ) (row : env[pre.length]? = some k) (hp : a.p = .const p)
    (linear : pre = [] → a.Linear) : a.Matches ctx.settings.ruleGraphScope ρ (k.quad p) := by
  have parts : Plan.empty.addAtoms ctx (pre ++ (source, a) :: post) =
      ((Plan.empty.addAtoms ctx pre).addAtom ctx source a []).addAtoms ctx post := by
    simp [Plan.addAtoms, List.foldl_append]
  have here : ((Plan.empty.addAtoms ctx pre).addAtom ctx source a []).Extends plan' := by
    rw [parts] at larger
    exact extends_addAtoms.trans larger
  have soundHere : VarMap.Sound ((Plan.empty.addAtoms ctx pre).varMap.bindAtom
      (Plan.empty.addAtoms ctx pre).nextAlias a) env ρ := by
    have named : ((Plan.empty.addAtoms ctx pre).addAtom ctx source a []).varMap = _ :=
        varMap_addAtom
    rw [← named]
    exact fun v e he => sound v e (here.vars v e he)
  have number : (Plan.empty.addAtoms ctx pre).nextAlias = pre.length := by
    rw [nextAlias_addAtoms]
    exact Nat.zero_add _
  rw [number] at soundHere
  cases pre with
  | nil =>
    refine matches_of_atomConds soundHere (linear rfl) row hp ?_
    intro x hx
    refine conds x (here.conds x ?_)
    simp [Plan.addAtom, Plan.addAtoms, Plan.empty, Plan.nextAlias, hx]
  | cons first pre =>
    refine matches_of_buildJoinCond soundHere row hp (fun v hv => VarMap.colRef_bindAtom hv) ?_
    intro x hx
    refine conds x (here.conds x ?_)
    have later : (Plan.empty.addAtoms ctx (first :: pre)).nextAlias ≠ 0 := by
      rw [number]
      exact Nat.succ_ne_zero _
    simp only [Plan.addAtom, if_neg later, List.flatMap_append, List.mem_append]
    refine .inl (.inr ?_)
    rw [number]
    simpa using hx

/-- Every variable is named after a column of some alias. -/
theorem colRef_addAtoms {items : List (Source × Atom)}
    (columns : ∀ v e, plan.varMap.colRef v = some e → ∃ t c, e = .col t c ∧ t < plan.nextAlias) :
    ∀ v e, (plan.addAtoms ctx items).varMap.colRef v = some e →
      ∃ t c, e = .col t c ∧ t < (plan.addAtoms ctx items).nextAlias := by
  induction items generalizing plan with
  | nil => exact columns
  | cons item items ih =>
    refine @ih (plan.addAtom ctx item.1 item.2 []) ?_
    have term {vm : VarMap} {t : Term} {c : Col}
        (old : ∀ v e, vm.colRef v = some e → ∃ t c, e = .col t c ∧ t < plan.nextAlias + 1) :
        ∀ v e, (vm.bindTerm t (.col plan.nextAlias c)).colRef v = some e →
          ∃ t c, e = .col t c ∧ t < plan.nextAlias + 1 := by
      intro v e he
      cases t with
      | var w =>
        rw [VarMap.bindTerm, VarMap.colRef_bind] at he
        split at he
        · cases he
          exact ⟨_, _, rfl, Nat.lt_succ_self _⟩
        · exact old v e he
      | _ => exact old v e he
    rw [varMap_addAtom, nextAlias_addAtom]
    refine term (term (term ?_))
    intro v e he
    obtain ⟨t, c, rfl, lt⟩ := columns v e he
    exact ⟨t, c, rfl, by omega⟩

/-- The values that a joined row gives to the variables. -/
def Plan.valuation (plan : Plan) (env : List Key) : Valuation := fun v =>
  ((plan.varMap.colRef v).bind (Expr.eval env)).getD 0

theorem sound_valuation {items : List (Source × Atom)} (length : env.length = items.length) :
    (Plan.empty.addAtoms ctx items).varMap.Sound env
      ((Plan.empty.addAtoms ctx items).valuation env) := by
  intro v e he
  obtain ⟨t, c, rfl, lt⟩ := colRef_addAtoms (fun v e h => by cases h) v e he
  rw [nextAlias_addAtoms] at lt
  have bound : t < env.length := by
    rw [length]
    simpa [Plan.empty, Plan.nextAlias] using lt
  simp [Plan.valuation, he, Expr.eval, bound]

end Plans

section Negation

variable {ctx : Context} {plan plan' : Plan} {neg : List Atom}

/-- A plan after its negated atoms have been added as tests. -/
structure Plan.Tests (ctx : Context) (plan plan' : Plan) (neg : List Atom) : Prop where
  from_ : plan'.from_ = plan.from_
  varMap : plan'.varMap = plan.varMap
  old : ∀ c ∈ plan.where_, c ∈ plan'.where_
  new : ∀ a ∈ neg, ∀ p, a.p = .const p → ∃ c ∈ plan'.where_, ∀ env, ctx.holds env c =
    !ctx.existsRow env p (negatedRef plan.varMap a.s) (negatedRef plan.varMap a.o)

theorem Plan.Tests.extends (h : plan.Tests ctx plan' neg) : plan.Extends plan' where
  conds := by
    intro c hc
    rw [h.from_]
    simp only [List.mem_append] at hc ⊢
    exact hc.imp_right (h.old c)
  vars := by
    intro v e he
    rw [h.varMap]
    exact he

/-- A compiler step that adds a test for a negated atom. -/
def AddsTest (ctx : Context) (f : Plan → BodyLiteral → Except String Plan) (a : Atom) : Prop :=
  ∀ plan p, a.p = .const p → ∃ c, f plan (.negated a) = .ok (plan.addCond c) ∧
    ∀ env, ctx.holds env c =
      !ctx.existsRow env p (negatedRef plan.varMap a.s) (negatedRef plan.varMap a.o)

theorem addsTest_seedNegated (a : Atom) : AddsTest ctx (seedNegated ctx) a := by
  intro plan p hp
  simp only [seedNegated, hp]
  split
  · exact ⟨_, rfl, fun _ => rfl⟩
  · exact ⟨_, rfl, fun _ => rfl⟩

theorem addsTest_variantLiteral (i : Nat) (a : Atom) : AddsTest ctx (variantLiteral ctx i) a := by
  intro plan p hp
  simp only [variantLiteral, hp]
  exact ⟨_, rfl, fun _ => rfl⟩

theorem exists_tests {f : Plan → BodyLiteral → Except String Plan}
    (adds : ∀ a, AddsTest ctx f a) (const : ∀ a ∈ neg, a.pred?.isSome) :
    ∃ plan', (neg.map BodyLiteral.negated).foldlM f plan = .ok plan' ∧
      plan.Tests ctx plan' neg := by
  induction neg generalizing plan with
  | nil => exact ⟨plan, rfl, rfl, rfl, fun _ hc => hc, fun _ ha => absurd ha List.not_mem_nil⟩
  | cons a neg ih =>
    obtain ⟨p, hp⟩ := Option.isSome_iff_exists.mp (const a List.mem_cons_self)
    obtain ⟨c, first, test⟩ := adds a plan p (eq_const_of_pred hp)
    obtain ⟨plan', folded, rest⟩ :=
      @ih (plan.addCond c) fun b hb => const b (List.mem_cons_of_mem a hb)
    refine ⟨plan', ?_, rest.from_, rest.varMap, ?_, ?_⟩
    · rw [List.map_cons, List.foldlM_cons, first]
      exact folded
    · exact fun d hd => rest.old d (List.mem_append.mpr (.inl hd))
    · intro b hb p' hp'
      cases List.mem_cons.mp hb with
      | inl same =>
        subst same
        rw [eq_const_of_pred hp] at hp'
        cases hp'
        exact ⟨c, rest.old c (List.mem_append.mpr (.inr (List.mem_singleton_self c))), test⟩
      | inr later => exact rest.new b later p' hp'

end Negation

section Rows

variable {ctx : Context} {I : Interpretation} {r : Rule} {plan : Plan} {neg : List Atom}
  {items : List (Source × Atom)} {delta : List Quad} {query : Query} {env : List Key} {k : Key}

/-- A passed test makes a negated atom hold in the stored triples. -/
theorem literalHolds_of_test {a : Atom} {p : TermId} {vm : VarMap} {ρ : Valuation}
    (sound : vm.Sound env ρ) (bound : ∀ b ∈ r.positiveAtoms, ∀ v, b.Binds v → (vm.colRef v).isSome)
    (negatable : a.Negatable ctx.settings.ruleGraphScope r) (hp : a.p = .const p)
    (absent : ctx.existsRow env p (negatedRef vm a.s) (negatedRef vm a.o) = false) :
    I.LiteralHolds r ctx.facts ρ (.negated a) := by
  intro b hb ρ' agree isMatch
  have pred : b.p = p := Interpretation.pred_of_matches isMatch (by simp [Atom.pred?, hp])
  -- a reference to a position that accepts `x` has the value `x`
  have value (t : Term) (x : TermId) (var : ∀ v, t = .var v → ∃ b ∈ r.positiveAtoms, b.Binds v)
      (accepts : t.Accepts ρ' x) :
      (negatedRef vm t).all (fun e => e.eval env = some x) = true := by
    cases t with
    | var v =>
      obtain ⟨c, hc, binds⟩ := var v rfl
      obtain ⟨e, he⟩ := Option.isSome_iff_exists.mp (bound c hc v binds)
      have mentioned : r.Binds v := by
        refine .inl ⟨c, hc, ?_⟩
        obtain h | h | h := binds
        · exact .inl h
        · exact .inr (.inr (.inl h))
        · exact .inr (.inr (.inr h))
      have same : ρ v = x := (agree v mentioned).symm.trans accepts
      simp [negatedRef, he, sound v e he, same]
    | const id => simp [negatedRef, Expr.eval, show id = x from accepts]
    | wildcard => rfl
    | defaultGraph => rfl
  rw [Database.existsRow, List.any_eq_false] at absent
  refine absent b.key ?_ ?_
  · rw [← pred]
    exact hb
  · rw [Bool.and_eq_true]
    exact ⟨value a.s b.s (fun v hv => negatable.bound v (.inl hv)) isMatch.s,
      value a.o b.o (fun v hv => negatable.bound v (.inr hv)) isMatch.o⟩

/-- What is known of a joined row of a plain rule. -/
structure RowOf (ctx : Context) (I : Interpretation) (r : Rule) (items : List (Source × Atom))
    (delta : List Quad) (ρ : Valuation) (quads : List Quad) (q : Quad) : Prop where
  rows : List.Forall₂ (fun item b => item.2.Matches ctx.settings.ruleGraphScope ρ b ∧
    b.key ∈ ctx.rows delta item.1) items quads
  literals : ∀ l ∈ r.body, I.LiteralHolds r ctx.facts ρ l
  head : ∃ h, r.head = some h ∧ h.Concludes ρ q

theorem value_of_headColumn {vm : VarMap} {ρ : Valuation} (sound : vm.Sound env ρ) {t : Term}
    {other : Term → Except String Expr} (determines : r.Determines t) {e : Expr} {x : TermId}
    (column : headColumn vm other t = .ok e) (value : e.eval env = some x) :
    t.value ρ = some x := by
  cases t with
  | const id =>
    cases column
    exact value
  | var v =>
    simp only [headColumn] at column
    split at column
    · rename_i e' he'
      cases column
      rw [sound v e he'] at value
      exact value
    · cases column
  | wildcard => cases determines
  | defaultGraph => cases determines

/-- The head of a plain rule concludes the selected columns. -/
theorem concludes_of_select {head : Atom} {p : TermId} {ρ : Valuation}
    {other : Term → Except String Expr} (plain : r.Plain ctx.settings.ruleGraphScope)
    (hh : r.head = some head) (hp : head.p = .const p) (sound : plan.varMap.Sound env ρ)
    (finished : plan.finish head other = .ok query) (selected : query.select env = some k) :
    head.Concludes ρ (k.quad p) := by
  obtain ⟨s, o, hs, ho, rfl⟩ := finish_eq_ok.mp finished
  obtain ⟨head', hh', graph, determinesS, determinesO⟩ := plain.head
  rw [hh] at hh'
  cases hh'
  obtain ⟨x, hx, selected⟩ := Option.bind_eq_some_iff.mp selected
  obtain ⟨y, hy, selected⟩ := Option.bind_eq_some_iff.mp selected
  obtain ⟨g, hg, selected⟩ := Option.bind_eq_some_iff.mp selected
  cases selected
  refine ⟨?_, ?_, ?_, ?_⟩
  · exact value_of_headColumn sound determinesS hs hx
  · rw [hp]
    rfl
  · exact value_of_headColumn sound determinesO ho hy
  · simp only [graph, headGExpr, Option.some.injEq] at hg
    rw [graph, ← hg]
    rfl

theorem isSome_colRef_addAtoms {v : String} (h : (plan.varMap.colRef v).isSome) :
    ((plan.addAtoms ctx items).varMap.colRef v).isSome := by
  obtain ⟨e, he⟩ := Option.isSome_iff_exists.mp h
  rw [extends_addAtoms.vars v e he]
  rfl

/-- A plan names the variables of all its atoms. -/
theorem isSome_colRef_of_mem {item : Source × Atom} (hitem : item ∈ items) {v : String}
    (binds : item.2.Binds v) : ((plan.addAtoms ctx items).varMap.colRef v).isSome := by
  induction items generalizing plan with
  | nil => cases hitem
  | cons first items ih =>
    cases List.mem_cons.mp hitem with
    | inl same =>
      subst same
      have named : ((plan.addAtom ctx item.1 item.2 []).varMap.colRef v).isSome := by
        rw [varMap_addAtom]
        exact VarMap.colRef_bindAtom binds
      exact @isSome_colRef_addAtoms ctx (plan.addAtom ctx item.1 item.2 []) items v named
    | inr later => exact @ih (plan.addAtom ctx first.1 first.2 []) later

section Joined

variable (plain : r.Plain ctx.settings.ruleGraphScope)
  (hitems : ∀ a, (∃ item ∈ items, item.2 = a) ↔ a ∈ r.positiveAtoms)
  (tests : (Plan.empty.addAtoms ctx items).Tests ctx plan neg)
  (conds : ∀ c ∈ plan.from_.flatMap FromItem.on ++ plan.where_, ctx.holds env c = true)

include plain hitems tests conds

theorem rows_of_joined
    (sources : List.Forall₂ (fun k item => k ∈ ctx.rows delta item.1) env items) :
    List.Forall₂ (fun item b => item.2.Matches ctx.settings.ruleGraphScope
        ((Plan.empty.addAtoms ctx items).valuation env) b ∧ b.key ∈ ctx.rows delta item.1)
      items (List.zipWith (fun k item => k.quad (item.2.pred?.getD 0)) env items) := by
  have length : env.length = items.length := sources.length_eq
  have sound : plan.varMap.Sound env ((Plan.empty.addAtoms ctx items).valuation env) := by
    rw [tests.varMap]
    exact sound_valuation length
  rw [List.forall₂_iff_get]
  refine ⟨by simp [length], ?_⟩
  intro j hj hj'
  have bound : j < env.length := length ▸ hj
  simp only [List.get_eq_getElem, List.getElem_zipWith]
  have ha : items[j].2 ∈ r.positiveAtoms := (hitems _).mp ⟨_, List.getElem_mem hj, rfl⟩
  obtain ⟨p, hp⟩ := Option.isSome_iff_exists.mp (plain.preds.2 _ (Rule.mem_positiveAtoms.mp ha))
  rw [hp, Option.getD_some]
  refine ⟨?_, (List.forall₂_iff_get.mp sources).2 j bound hj⟩
  have parts : items.take j ++ (items[j].1, items[j].2) :: items.drop (j + 1) = items := by simp
  have larger : (Plan.empty.addAtoms ctx
      (items.take j ++ (items[j].1, items[j].2) :: items.drop (j + 1))).Extends plan := by
    rw [parts]
    exact tests.extends
  refine matches_of_addAtoms larger conds sound ?_ (eq_const_of_pred hp)
    fun _ => plain.linear _ ha
  simp [Nat.min_eq_left (Nat.le_of_lt hj), bound]

theorem literals_of_joined (shape : r.body = r.positiveAtoms.map .positive ++ neg.map .negated)
    (length : env.length = items.length) :
    ∀ l ∈ r.body, I.LiteralHolds r ctx.facts ((Plan.empty.addAtoms ctx items).valuation env) l := by
  intro l hl
  rw [shape, List.mem_append, List.mem_map, List.mem_map] at hl
  obtain ⟨a, _, rfl⟩ | ⟨a, ha, rfl⟩ := hl
  · trivial
  · have inRule : .negated a ∈ r.body := by
      rw [shape]
      exact List.mem_append.mpr (.inr (List.mem_map_of_mem ha))
    obtain ⟨p, hp⟩ := Option.isSome_iff_exists.mp (plain.preds.2 _ inRule)
    obtain ⟨c, hc, test⟩ := tests.new a ha p (eq_const_of_pred hp)
    have passed := conds c (List.mem_append.mpr (.inr hc))
    rw [test env, Bool.not_eq_true'] at passed
    refine literalHolds_of_test (sound_valuation length) ?_ (plain.negatable a inRule)
      (eq_const_of_pred hp) passed
    intro b hb v binds
    obtain ⟨item, hitem, rfl⟩ := (hitems b).mpr hb
    exact isSome_colRef_of_mem hitem binds

end Joined

/-- Every row of a finished plan for a plain rule comes from matching triples. -/
theorem exists_rowOf {head : Atom} {p : TermId} {other : Term → Except String Expr}
    (plain : r.Plain ctx.settings.ruleGraphScope)
    (shape : r.body = r.positiveAtoms.map .positive ++ neg.map .negated)
    (hitems : ∀ a, (∃ item ∈ items, item.2 = a) ↔ a ∈ r.positiveAtoms)
    (tests : (Plan.empty.addAtoms ctx items).Tests ctx plan neg) (hh : r.head = some head)
    (hp : head.p = .const p) (finished : plan.finish head other = .ok query)
    (joined : env ∈ query.envs ctx.toDatabase delta) (selected : query.select env = some k) :
    ∃ ρ quads, RowOf ctx I r items delta ρ quads (k.quad p) := by
  obtain ⟨s, o, _, _, same⟩ := finish_eq_ok.mp finished
  obtain ⟨rows, conds⟩ := Query.mem_envs.mp joined
  have sources : List.Forall₂ (fun k item => k ∈ ctx.rows delta item.1) env items := by
    have lists : plan.from_.map FromItem.source = items.map Prod.fst := by
      rw [tests.from_, sources_addAtoms]
      rfl
    let Reads (k : Key) (source : Source) : Prop := k ∈ ctx.rows delta source
    have bySource : List.Forall₂ Reads env (plan.from_.map FromItem.source) := by
      rw [same] at rows
      exact List.forall₂_map_right_iff.mpr rows
    rw [lists] at bySource
    exact (List.forall₂_map_right_iff (R := Reads)).mp bySource
  have length : env.length = items.length := sources.length_eq
  rw [same] at conds
  refine ⟨(Plan.empty.addAtoms ctx items).valuation env, _,
    rows_of_joined plain hitems tests conds sources,
    literals_of_joined plain hitems tests conds shape length, head, hh, ?_⟩
  refine concludes_of_select plain hh hp ?_ finished selected
  rw [tests.varMap]
  exact sound_valuation length

/-- Triples that match the atoms of a plain rule complete an instance. -/
theorem RowOf.instance {ρ : Valuation} {quads chosen : List Quad} {q : Quad}
    (row : RowOf ctx I r items delta ρ quads q) (plain : r.Plain ctx.settings.ruleGraphScope)
    (same : I.scope = ctx.settings.ruleGraphScope)
    (atoms : List.Forall₂ (fun a b => a.Matches ctx.settings.ruleGraphScope ρ b) r.positiveAtoms
      chosen) : I.Instance r ctx.facts ρ chosen q where
  head := row.head
  atoms := by
    refine atoms.imp fun a b isMatch => ⟨same ▸ isMatch, ?_⟩
    intro ⟨filters, _⟩
    refine absurd (List.filterMap_eq_nil_iff.mpr ?_) filters
    intro l hl
    obtain ⟨a, rfl⟩ | ⟨a, rfl⟩ := plain.isAtom l hl <;> rfl
  literals := row.literals

theorem mem_seedItems (a : Atom) :
    (∃ item ∈ (seedAtoms ctx r).map storedItem, item.2 = a) ↔ a ∈ r.positiveAtoms := by
  simp [storedItem, mem_seedAtoms]

/-- The seed plan joins the ordered atoms and tests the negated ones. -/
theorem tests_of_seedPlan (plain : r.Plain ctx.settings.ruleGraphScope)
    (hplan : seedPlan ctx r = .ok plan) :
    ∃ neg : List Atom, r.body = r.positiveAtoms.map .positive ++ neg.map .negated ∧
      (Plan.empty.addAtoms ctx ((seedAtoms ctx r).map storedItem)).Tests ctx plan neg := by
  obtain ⟨neg, shape⟩ := plain.body
  have const (a : Atom) (ha : a ∈ neg) : a.pred?.isSome := by
    refine plain.preds.2 (.negated a) ?_
    rw [shape]
    exact List.mem_append.mpr (.inr (List.mem_map_of_mem ha))
  obtain ⟨plan', folded, tests⟩ := exists_tests addsTest_seedNegated const
  have compiled : seedPlan ctx r = .ok plan' := by
    refine seedPlan_eq_ok plain.isAtom (foldlM_seedAtom ?_) ?_
    · intro a ha
      exact plain.preds.2 _ (Rule.mem_positiveAtoms.mp (mem_seedAtoms.mp ha))
    · rw [shape, List.foldlM_append, foldlM_seedNegated_positive]
      exact folded
  rw [compiled] at hplan
  cases hplan
  exact ⟨neg, shape, tests⟩

/-- Every row of the seed of a plain rule that is not self-recursive is an instance
with stored premises. -/
theorem instance_of_seed {p : TermId} {stmt : Stmt} (plain : r.Plain ctx.settings.ruleGraphScope)
    (same : I.scope = ctx.settings.ruleGraphScope)
    (compiled : compileSingleRuleTo ctx r = .ok (p, stmt)) (nonrecursive : r.isRecursive p = false)
    (yields : stmt.Yields ctx.toDatabase delta k) :
    ∃ ρ chosen, I.Instance r ctx.facts ρ chosen (k.quad p) ∧ ∀ b ∈ chosen, b ∈ ctx.facts := by
  obtain ⟨head, hh, hp, ⟨recursive, _⟩ | ⟨_, query, hquery, rfl⟩⟩ :=
    compileSingleRuleTo_eq_ok.mp compiled
  · rw [nonrecursive] at recursive
    cases recursive
  obtain ⟨env, joined, selected⟩ := yields
  obtain ⟨plan, hplan, finished⟩ := Fold.bind_eq_ok.mp hquery
  obtain ⟨neg, shape, tests⟩ := tests_of_seedPlan plain hplan
  obtain ⟨ρ, quads, row⟩ := exists_rowOf (I := I) plain shape mem_seedItems tests hh hp finished
    joined selected
  -- take the matching triples in the order of the rule
  have each (a : Atom) (ha : a ∈ r.positiveAtoms) :
      ∃ b : Quad, a.Matches ctx.settings.ruleGraphScope ρ b ∧ b ∈ ctx.facts := by
    obtain ⟨item, hitem, rfl⟩ : ∃ item ∈ (seedAtoms ctx r).map storedItem, item.2 = a :=
      (mem_seedItems a).mpr ha
    obtain ⟨b, _, isMatch, stored⟩ := Fold.exists_right_of_forall₂ row.rows hitem
    refine ⟨b, isMatch, ?_⟩
    obtain ⟨a, ha', rfl⟩ := List.mem_map.mp hitem
    obtain ⟨p', hp'⟩ := Option.isSome_iff_exists.mp (plain.preds.2 _ (Rule.mem_positiveAtoms.mp ha))
    have pred : b.p = p' := Interpretation.pred_of_matches isMatch hp'
    have hp'' : a.pred? = some p' := hp'
    simp only [storedItem, hp'', Option.getD_some, Database.rows, ← pred] at stored
    exact stored
  obtain ⟨chosen, hchosen⟩ := exists_of_forall_mem each
  refine ⟨ρ, chosen, row.instance plain same (hchosen.imp fun _ _ h => h.1), ?_⟩
  intro b hb
  obtain ⟨a, _, h⟩ := Fold.exists_right_of_forall₂ hchosen.flip hb
  exact h.2

/-- The variant plan joins the atoms in the order of the rule. -/
theorem tests_of_variantPlan {i : Nat} (plain : r.Plain ctx.settings.ruleGraphScope)
    (hplan : variantPlan ctx r i = .ok plan) :
    ∃ neg : List Atom, r.body = r.positiveAtoms.map .positive ++ neg.map .negated ∧
      (Plan.empty.addAtoms ctx (variantItems r i)).Tests ctx plan neg := by
  obtain ⟨neg, shape⟩ := plain.body
  have const (a : Atom) (ha : a ∈ neg) : a.pred?.isSome := by
    refine plain.preds.2 (.negated a) ?_
    rw [shape]
    exact List.mem_append.mpr (.inr (List.mem_map_of_mem ha))
  obtain ⟨plan', folded, tests⟩ := exists_tests (addsTest_variantLiteral i) const
  have compiled : variantPlan ctx r i = .ok plan' := by
    rw [variantPlan, shape, List.foldlM_append, foldlM_variantLiteral]
    · exact folded
    · intro a ha
      exact plain.preds.2 _ (Rule.mem_positiveAtoms.mp ha)
  rw [compiled] at hplan
  cases hplan
  exact ⟨neg, shape, tests⟩

theorem mem_variantItems (i : Nat) (a : Atom) :
    (∃ item ∈ variantItems r i, item.2 = a) ↔ a ∈ r.positiveAtoms := by
  constructor
  · rintro ⟨item, hitem, rfl⟩
    obtain ⟨⟨b, j⟩, hb, rfl⟩ := List.mem_map.mp hitem
    exact (List.mem_zipIdx' hb).2 ▸ List.getElem_mem _
  · exact complete_variantItems a

/-- Every row of a variant of a plain rule for one derived triple is an instance with
that triple as premise at the variant's position, and stored premises elsewhere. -/
theorem instance_of_variant {head : Atom} {p : TermId} {i : Nat} {a : Quad}
    (plain : r.Plain ctx.settings.ruleGraphScope) (same : I.scope = ctx.settings.ruleGraphScope)
    (hh : r.head = some head) (hp : head.p = .const p) (bound : i < r.positiveAtoms.length)
    (compiled : compileRuleWithOneDeltaAtom ctx r head i = .ok query)
    (joined : env ∈ query.envs ctx.toDatabase [a]) (selected : query.select env = some k) :
    ∃ ρ chosen, I.Instance r ctx.facts ρ chosen (k.quad p) ∧ chosen[i]? = some a ∧
      ∀ j b, j ≠ i → chosen[j]? = some b → b ∈ ctx.facts := by
  obtain ⟨plan, hplan, finished⟩ := Fold.bind_eq_ok.mp compiled
  obtain ⟨neg, shape, tests⟩ := tests_of_variantPlan plain hplan
  obtain ⟨ρ, quads, row⟩ := exists_rowOf (I := I) plain shape (mem_variantItems i) tests hh hp
    finished joined selected
  have length : quads.length = r.positiveAtoms.length := by
    rw [← row.rows.length_eq]
    simp [variantItems]
  have each (j : Nat) (hj : j < quads.length) (hj' : j < r.positiveAtoms.length) :
      r.positiveAtoms[j].Matches ctx.settings.ruleGraphScope ρ quads[j] ∧
        quads[j].key ∈ ctx.rows [a] (if j = i then .delta quads[j].p else .stored quads[j].p) := by
    have hj'' : j < (variantItems r i).length := by simpa [variantItems]
    have here := (List.forall₂_iff_get.mp row.rows).2 j hj'' hj
    have item : (variantItems r i)[j] = variantItem i (r.positiveAtoms[j], j) := by
      simp [variantItems]
    simp only [List.get_eq_getElem, item, variantItem] at here
    obtain ⟨p', hp'⟩ := Option.isSome_iff_exists.mp
      (plain.preds.2 _ (Rule.mem_positiveAtoms.mp (List.getElem_mem hj')))
    have pred : quads[j].p = p' := Interpretation.pred_of_matches here.1 hp'
    rw [hp', Option.getD_some, ← pred] at here
    exact here
  refine ⟨ρ, quads, row.instance plain same ?_, ?_, ?_⟩
  · rw [List.forall₂_iff_get]
    exact ⟨length.symm, fun j hj hj' => (each j hj' hj).1⟩
  · have bound' : i < quads.length := length ▸ bound
    have here := (each i bound' bound).2
    rw [if_pos rfl, mem_rows_delta, Quad.key_quad, List.mem_singleton] at here
    rw [List.getElem?_eq_getElem bound', here]
  · intro j b ne hb
    obtain ⟨bound', rfl⟩ := List.getElem?_eq_some_iff.mp hb
    have here := (each j bound' (length ▸ bound')).2
    rw [if_neg ne] at here
    exact here

end Rows

end PgRipple.Datalog
