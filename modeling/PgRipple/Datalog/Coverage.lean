import PgRipple.Datalog.Model
import PgRipple.Datalog.Evaluation

/-!
# Instances that the statements of a rule cover

For rules made of atoms alone, positive ones first, the compiled joins lose
nothing: an instance whose premises are all stored is a row of the seed statement
of a non-recursive rule, and an instance with one derived premise is a row of the
delta variant for its position.

The argument follows the plan. The variable map only ever names columns that hold
the value of the variable, so every join condition and every constant condition is
true of the chosen triples.
-/

namespace PgRipple.Datalog

open Storage

/-- The meaning of rules in an installation. -/
def Environment.interpretation (env : Environment)
    (aggregate : AggregateLiteral → Set Quad → TermId) : Interpretation where
  ext := env.ext
  scope := env.settings.ruleGraphScope
  aggregate := aggregate

/-- The triples that statements read as stored. -/
def Context.facts (ctx : Context) : Set Quad := {q | q.key ∈ ctx.stored q.p}

@[simp] theorem mem_facts_context {env : Environment} {st : Store} {q : Quad} :
    q ∈ (env.context st).facts ↔ st.Visible q := by
  have read : q.key ∈ vpReadExpr st q.p ↔ st.Visible q := by
    rw [mem_vpReadExpr, Quad.key_quad]
  exact read

/-- The atom gives the variable a column. -/
def Atom.Binds (a : Atom) (v : String) : Prop := a.s = .var v ∨ a.o = .var v ∨ a.g = .var v

namespace VarMap

variable {vm : VarMap} {v w : String} {e e' : Expr}

theorem colRef_bind :
    (vm.bind v e).colRef w =
      if w = v ∧ vm.colRef v = none then some e else vm.colRef w := by
  unfold bind
  cases bound : vm.colRef v with
  | some e' => simp
  | none =>
    simp only [Option.isSome_none, Bool.false_eq_true, if_false, colRef, List.lookup_append]
    by_cases same : w = v
    · subst same
      simp only [colRef] at bound
      simp [bound]
    · simp [same, List.lookup_cons, beq_eq_false_iff_ne.mpr same]

theorem colRef_bind_of_some (h : vm.colRef w = some e') : (vm.bind v e).colRef w = some e' := by
  rw [colRef_bind]
  split
  · rename_i fresh
    rw [fresh.1, fresh.2] at h
    cases h
  · exact h

theorem isSome_colRef_bind : ((vm.bind v e).colRef v).isSome := by
  rw [colRef_bind]
  cases h : vm.colRef v <;> simp

/-- Every column the map names holds the value of its variable. -/
def Sound (vm : VarMap) (env : List Key) (ρ : Valuation) : Prop :=
  ∀ v e, vm.colRef v = some e → e.eval env = some (ρ v)

variable {env : List Key} {ρ : Valuation}

theorem Sound.bind (h : vm.Sound env ρ) (value : e.eval env = some (ρ v)) :
    (vm.bind v e).Sound env ρ := by
  intro w e' hw
  rw [colRef_bind] at hw
  split at hw
  · rename_i fresh
    cases hw
    rw [fresh.1]
    exact value
  · exact h w e' hw

theorem Sound.bindTerm (h : vm.Sound env ρ) {t : Term}
    (value : ∀ v, t = .var v → e.eval env = some (ρ v)) : (vm.bindTerm t e).Sound env ρ := by
  cases t with
  | var v => exact h.bind (value v rfl)
  | _ => exact h

theorem colRef_bindTerm_of_some {t : Term} (h : (vm.colRef w).isSome) :
    ((vm.bindTerm t e).colRef w).isSome := by
  obtain ⟨e', he'⟩ := Option.isSome_iff_exists.mp h
  cases t with
  | var v => simp [VarMap.bindTerm, colRef_bind_of_some he']
  | _ => exact h

theorem colRef_bindTerm_var : ((vm.bindTerm (.var w) e).colRef w).isSome := isSome_colRef_bind

theorem colRef_bindAtom_of_some {t : Nat} {a : Atom} (h : (vm.colRef w).isSome) :
    ((vm.bindAtom t a).colRef w).isSome :=
  colRef_bindTerm_of_some (colRef_bindTerm_of_some (colRef_bindTerm_of_some h))

/-- An atom binds the variables of its subject, object and graph. -/
theorem colRef_bindAtom {t : Nat} {a : Atom} (h : a.Binds w) :
    ((vm.bindAtom t a).colRef w).isSome := by
  unfold bindAtom
  obtain h | h | h := h
  · rw [h]
    exact colRef_bindTerm_of_some (colRef_bindTerm_of_some colRef_bindTerm_var)
  · rw [h]
    exact colRef_bindTerm_of_some colRef_bindTerm_var
  · rw [h]
    exact colRef_bindTerm_var

end VarMap

section Plans

variable {ctx : Context} {env : List Key} {ρ : Valuation} {plan : Plan} {t : Nat} {a : Atom}
  {b : Quad}

theorem holds_eq {l r : Expr} {x : Int} (hl : l.eval env = some x) (hr : r.eval env = some x) :
    ctx.holds env (.eq l r) = true := by
  simp [Cond.eq, Database.holds, hl, hr, CompareOp.test]

theorem eval_col {c : Col} {k : Key} (h : env[t]? = some k) :
    (Expr.col t c).eval env = some (c.of k) := by
  simp [Expr.eval, h]

theorem holds_constCond {c : Col} {term : Term} {k : Key} (h : env[t]? = some k)
    (accepts : term.Accepts ρ (c.of k)) : ∀ x ∈ constCond t c term, ctx.holds env x = true := by
  intro x hx
  cases term with
  | const id =>
    cases List.mem_singleton.mp hx
    exact holds_eq (eval_col h) (by rw [show id = c.of k from accepts]; rfl)
  | _ => cases hx

theorem holds_scopeCond {k : Key} (h : env[t]? = some k)
    (inScope : ctx.settings.ruleGraphScope = .default → k.g = 0) :
    ∀ x ∈ scopeCond ctx t, ctx.holds env x = true := by
  intro x hx
  unfold scopeCond at hx
  split at hx
  · rename_i scope
    cases List.mem_singleton.mp hx
    exact holds_eq (eval_col h) (congrArg some (inScope scope).symm)
  · cases hx

/-- What an atom says about its own columns is true of a matching triple. -/
theorem holds_atomConds (h : env[t]? = some b.key)
    (isMatch : a.Matches ctx.settings.ruleGraphScope ρ b) :
    ∀ x ∈ atomConds ctx t a, ctx.holds env x = true := by
  intro x hx
  simp only [atomConds, List.mem_append] at hx
  obtain (hx | hx) | hx := hx
  · exact holds_constCond h isMatch.s x hx
  · exact holds_constCond h isMatch.o x hx
  · have graph := isMatch.g
    cases term : a.g with
    | var v => simp [term] at hx
    | const id =>
      rw [term] at graph hx
      cases List.mem_singleton.mp hx
      exact holds_eq (eval_col h) (by rw [show id = b.g from graph]; rfl)
    | wildcard =>
      rw [term] at graph hx
      exact holds_scopeCond h graph x hx
    | defaultGraph =>
      rw [term] at graph hx
      exact holds_scopeCond h graph x hx

theorem holds_positionCond {vm : VarMap} (sound : vm.Sound env ρ) {c : Col} {term : Term} {k : Key}
    (h : env[t]? = some k) (accepts : term.Accepts ρ (c.of k)) :
    ∀ x ∈ positionCond vm t c term, ctx.holds env x = true := by
  intro x hx
  cases term with
  | var v =>
    simp only [positionCond, Option.mem_toList, Option.map_eq_some_iff] at hx
    obtain ⟨e, he, rfl⟩ := hx
    exact holds_eq (eval_col h) ((sound v e he).trans (congrArg some accepts))
  | const id =>
    cases List.mem_singleton.mp hx
    exact holds_eq (eval_col h) (by rw [show id = c.of k from accepts]; rfl)
  | _ => cases hx

theorem holds_buildJoinCond {vm : VarMap} (sound : vm.Sound env ρ) (h : env[t]? = some b.key)
    (isMatch : a.Matches ctx.settings.ruleGraphScope ρ b) :
    ∀ x ∈ buildJoinCond ctx vm t a, ctx.holds env x = true := by
  intro x hx
  simp only [buildJoinCond, List.mem_append] at hx
  obtain (hx | hx) | hx := hx
  · exact holds_positionCond sound h isMatch.s x hx
  · exact holds_positionCond sound h isMatch.o x hx
  · have graph := isMatch.g
    cases term : a.g with
    | var v =>
      rw [term] at graph hx
      exact holds_positionCond sound h
        (show Term.Accepts ρ (.var v) (Col.g.of b.key) from graph) x hx
    | const id =>
      rw [term] at graph hx
      exact holds_positionCond sound h
        (show Term.Accepts ρ (.const id) (Col.g.of b.key) from graph) x
        hx
    | wildcard =>
      rw [term] at graph hx
      exact holds_scopeCond h graph x hx
    | defaultGraph =>
      rw [term] at graph hx
      exact holds_scopeCond h graph x hx

theorem sound_bindAtom {vm : VarMap} (sound : vm.Sound env ρ) (h : env[t]? = some b.key)
    {scope : GraphScope} (isMatch : a.Matches scope ρ b) : (vm.bindAtom t a).Sound env ρ := by
  refine VarMap.Sound.bindTerm (VarMap.Sound.bindTerm (VarMap.Sound.bindTerm sound ?_) ?_) ?_
  · intro v term
    have accepts := isMatch.s
    rw [term] at accepts
    exact (eval_col h).trans (congrArg some (show ρ v = b.s from accepts).symm)
  · intro v term
    have accepts := isMatch.o
    rw [term] at accepts
    exact (eval_col h).trans (congrArg some (show ρ v = b.o from accepts).symm)
  · intro v term
    have accepts := isMatch.g
    rw [term] at accepts
    exact (eval_col h).trans (congrArg some (show ρ v = b.g from accepts).symm)

/-- A plan for the given tables and atoms, true of one row for each of them. -/
structure PlanSpec (ctx : Context) (env : List Key) (ρ : Valuation) (items : List (Source × Atom))
    (plan : Plan) : Prop where
  sources : plan.from_.map FromItem.source = items.map Prod.fst
  conds : ∀ c ∈ plan.from_.flatMap FromItem.on ++ plan.where_, ctx.holds env c = true
  sound : plan.varMap.Sound env ρ
  bound : ∀ item ∈ items, ∀ v, item.2.Binds v → (plan.varMap.colRef v).isSome

theorem planSpec_empty : PlanSpec ctx env ρ [] Plan.empty where
  sources := rfl
  conds := fun _ hc => absurd hc List.not_mem_nil
  sound := fun v e h => by cases h
  bound := fun _ h => absurd h List.not_mem_nil

namespace PlanSpec

variable {items : List (Source × Atom)}

theorem nextAlias_eq (h : PlanSpec ctx env ρ items plan) : plan.nextAlias = items.length := by
  have := congrArg List.length h.sources
  simpa [Plan.nextAlias] using this

theorem addAtom (h : PlanSpec ctx env ρ items plan) {source : Source}
    (row : env[items.length]? = some b.key)
    (isMatch : a.Matches ctx.settings.ruleGraphScope ρ b) :
    PlanSpec ctx env ρ (items ++ [(source, a)]) (plan.addAtom ctx source a []) := by
  have row' : env[plan.nextAlias]? = some b.key := by rw [h.nextAlias_eq, row]
  have sound' := sound_bindAtom h.sound row' isMatch
  have vars : (plan.addAtom ctx source a []).varMap = plan.varMap.bindAtom plan.nextAlias a := by
    simp only [Plan.addAtom]
    split <;> rfl
  refine ⟨?_, ?_, ?_, ?_⟩
  · obtain ⟨on, hon⟩ := from_addAtom ctx plan source a []
    rw [hon, List.map_append, h.sources, List.map_append]
    rfl
  · intro c hc
    have old (hc : c ∈ plan.from_.flatMap FromItem.on ∨ c ∈ plan.where_) :
        ctx.holds env c = true := h.conds c (List.mem_append.mpr hc)
    simp only [Plan.addAtom] at hc
    split at hc
    · simp only [List.flatMap_append, List.mem_append, List.append_nil, List.flatMap_cons,
        List.flatMap_nil] at hc
      obtain hc | hc | hc := hc
      · exact old (.inl hc)
      · exact old (.inr hc)
      · exact holds_atomConds row' isMatch c hc
    · simp only [List.flatMap_append, List.mem_append, List.append_nil, List.flatMap_cons,
        List.flatMap_nil] at hc
      obtain (hc | hc) | hc | hc := hc
      · exact old (.inl hc)
      · exact holds_buildJoinCond sound' row' isMatch c hc
      · exact old (.inr hc)
      · exact holds_atomConds row' isMatch c hc
  · rw [vars]
    exact sound'
  · intro item hitem v hv
    rw [vars]
    cases List.mem_append.mp hitem with
    | inl before => exact VarMap.colRef_bindAtom_of_some (h.bound item before v hv)
    | inr last =>
      cases List.mem_singleton.mp last
      exact VarMap.colRef_bindAtom hv

/-- Adding atoms one by one, for rows that match all of them. -/
theorem foldl_addAtom {rest : List (Source × Atom)} {chosen : List Quad} (front : List Key)
    (h : PlanSpec ctx env ρ items plan) (front_length : front.length = items.length)
    (split : env = front ++ chosen.map Quad.key)
    (isMatch : List.Forall₂ (fun item b => item.2.Matches ctx.settings.ruleGraphScope ρ b)
      rest chosen) :
    PlanSpec ctx env ρ (items ++ rest)
      (rest.foldl (fun plan item => plan.addAtom ctx item.1 item.2 []) plan) := by
  induction isMatch generalizing items plan front with
  | nil => simpa using h
  | @cons item b rest chosen first _ ih =>
    have row : env[items.length]? = some b.key := by
      rw [split, ← front_length]
      simp
    have next : PlanSpec ctx env ρ (items ++ [item]) (plan.addAtom ctx item.1 item.2 []) :=
      h.addAtom row first
    have longer : (front ++ [b.key]).length = (items ++ [item]).length := by simp [front_length]
    have := ih (front ++ [b.key]) next longer (by simp [split])
    simpa using this

theorem addCond (h : PlanSpec ctx env ρ items plan) {c : Cond} (holds : ctx.holds env c = true) :
    PlanSpec ctx env ρ items (plan.addCond c) where
  sources := h.sources
  conds := by
    intro x hx
    simp only [Plan.addCond, List.mem_append, List.mem_singleton] at hx
    obtain hx | hx | rfl := hx
    · exact h.conds x (List.mem_append.mpr (.inl hx))
    · exact h.conds x (List.mem_append.mpr (.inr hx))
    · exact holds
  sound := h.sound
  bound := h.bound

end PlanSpec

end Plans

/-- The literal is an atom, positive or negated. -/
def BodyLiteral.IsAtom (l : BodyLiteral) : Prop := (∃ a, l = .positive a) ∨ ∃ a, l = .negated a

/-- A head term that the body determines. -/
def Rule.Determines (r : Rule) : Term → Prop
  | .const _ => True
  | .var v => ∃ a ∈ r.positiveAtoms, a.Binds v
  | _ => False

/-- A negated atom without local variables and without a graph of its own. -/
structure Atom.Negatable (scope : GraphScope) (r : Rule) (a : Atom) : Prop where
  bound : ∀ v, a.s = .var v ∨ a.o = .var v → ∃ b ∈ r.positiveAtoms, b.Binds v
  graph : a.g = .defaultGraph
  scope : scope = .all

/-- A rule over the default graph whose body is a conjunction of atoms, positive ones
first, and whose head variables occur in it. -/
structure Rule.Conjunctive (scope : GraphScope) (r : Rule) : Prop where
  body : ∃ neg : List Atom, r.body = r.positiveAtoms.map .positive ++ neg.map .negated
  preds : r.ConstPreds
  negatable : ∀ a, .negated a ∈ r.body → a.Negatable scope r
  head : ∃ h, r.head = some h ∧ h.g = .defaultGraph ∧ r.Determines h.s ∧ r.Determines h.o

section Covers

variable {ctx : Context} {I : Interpretation} {r : Rule} {N : Set Quad} {ρ : Valuation}
  {chosen : List Quad} {q : Quad} {env : List Key} {plan : Plan} {items : List (Source × Atom)}

/-- A negated atom that holds passes the test against the stored triples. -/
theorem existsRow_eq_false {a : Atom} {p : TermId} (spec : PlanSpec ctx env ρ items plan)
    (complete : ∀ b ∈ r.positiveAtoms, ∃ item ∈ items, item.2 = b)
    (negatable : a.Negatable ctx.settings.ruleGraphScope r) (hp : a.p = .const p)
    (same : I.scope = ctx.settings.ruleGraphScope)
    (stored : ∀ k ∈ ctx.stored p, k.quad p ∈ N) (holds : I.LiteralHolds r N ρ (.negated a)) :
    ctx.existsRow env p (negatedRef plan.varMap a.s) (negatedRef plan.varMap a.o) = false := by
  -- a position whose reference has the value `x` accepts `x`
  have accepts (t : Term) (x : TermId) (bound : ∀ v, t = .var v → ∃ b ∈ r.positiveAtoms, b.Binds v)
      (value : (negatedRef plan.varMap t).all (fun e => e.eval env = some x) = true) :
      t.Accepts ρ x := by
    cases t with
    | var v =>
      obtain ⟨b, hb, binds⟩ := bound v rfl
      obtain ⟨item, hitem, rfl⟩ := complete b hb
      obtain ⟨e, he⟩ := Option.isSome_iff_exists.mp (spec.bound item hitem v binds)
      have here : e.eval env = some x := by simpa [negatedRef, he] using value
      exact Option.some.inj ((spec.sound v e he).symm.trans here)
    | const id =>
      have here : some id = some x := by simpa [negatedRef, Expr.eval] using value
      exact Option.some.inj here
    | wildcard => trivial
    | defaultGraph => trivial
  rw [Database.existsRow, List.any_eq_false]
  intro k hk found
  rw [Bool.and_eq_true] at found
  refine holds (k.quad p) (stored k hk) ρ (fun _ _ => rfl) ⟨?_, ?_, ?_, ?_⟩
  · exact accepts a.s k.s (fun v hv => negatable.bound v (.inl hv)) found.1
  · rw [hp]
    rfl
  · exact accepts a.o k.o (fun v hv => negatable.bound v (.inr hv)) found.2
  · rw [negatable.graph, same, negatable.scope]
    intro absurd
    cases absurd

/-- A head term that the body determines has a column with its value. -/
theorem headColumn_of_determines {t : Term} {other : Term → Except String Expr}
    (spec : PlanSpec ctx env ρ items plan)
    (complete : ∀ b ∈ r.positiveAtoms, ∃ item ∈ items, item.2 = b) (determines : r.Determines t) :
    ∃ e, headColumn plan.varMap other t = .ok e ∧ e.eval env = t.value ρ := by
  cases t with
  | const id => exact ⟨.const id, rfl, rfl⟩
  | var v =>
    obtain ⟨b, hb, binds⟩ := determines
    obtain ⟨item, hitem, rfl⟩ := complete b hb
    obtain ⟨e, he⟩ := Option.isSome_iff_exists.mp (spec.bound item hitem v binds)
    refine ⟨e, ?_, spec.sound v e he⟩
    simp [headColumn, he]
  | wildcard => cases determines
  | defaultGraph => cases determines

/-- A plan for the atoms of a conjunctive rule ends in a statement that selects the
conclusion. -/
theorem exists_finish {head : Atom} (other : Term → Except String Expr)
    (spec : PlanSpec ctx env ρ items plan)
    (complete : ∀ b ∈ r.positiveAtoms, ∃ item ∈ items, item.2 = b)
    (graph : head.g = .defaultGraph) (hs : r.Determines head.s) (ho : r.Determines head.o)
    (concludes : head.Concludes ρ q) :
    ∃ query, plan.finish head other = .ok query ∧ query.from_ = plan.from_ ∧
      query.where_ = plan.where_ ∧ query.select env = some q.key := by
  obtain ⟨s, hs, vs⟩ := headColumn_of_determines (t := head.s) spec complete hs
  obtain ⟨o, ho, vo⟩ := headColumn_of_determines (t := head.o) spec complete ho
  refine ⟨_, finish_eq_ok.mpr ⟨s, o, hs, ho, rfl⟩, rfl, rfl, ?_⟩
  have g : (0 : TermId) = q.g := by
    have := concludes.g
    rwa [graph] at this
  rw [concludes.s] at vs
  rw [concludes.o] at vo
  simp only [Query.select, vs, vo, graph, headGExpr, Option.pure_def, Option.bind_eq_bind,
    Option.bind_some, Quad.key, g]

/-- The chosen triples are a joined row of the finished statement. -/
theorem mem_envs_of_spec {query : Query} {delta : List Quad}
    (spec : PlanSpec ctx (chosen.map Quad.key) ρ items plan) (from_ : query.from_ = plan.from_)
    (where_ : query.where_ = plan.where_)
    (rows : List.Forall₂ (fun item b => b.key ∈ ctx.rows delta item.1) items chosen) :
    chosen.map Quad.key ∈ query.envs ctx.toDatabase delta := by
  rw [Query.mem_envs]
  refine ⟨?_, ?_⟩
  · have sources : List.Forall₂ (fun k source => k ∈ ctx.rows delta source)
        (chosen.map Quad.key) (items.map Prod.fst) := by
      rw [List.forall₂_map_left_iff, List.forall₂_map_right_iff]
      exact rows.flip
    rw [← spec.sources, List.forall₂_map_right_iff] at sources
    rw [from_]
    exact sources
  · intro c hc
    rw [Query.conds, from_, where_] at hc
    exact spec.conds c hc

/-- An atom, read from the stored triples. -/
def storedItem (a : Atom) : Source × Atom := (.stored (a.pred?.getD 0), a)

theorem eq_const_of_pred {a : Atom} {p : TermId} (h : a.pred? = some p) : a.p = .const p := by
  cases term : a.p with
  | const id =>
    simp only [Atom.pred?, term, Option.some.injEq] at h
    rw [h]
  | _ => simp [Atom.pred?, term] at h

theorem foldlM_seedAtom {atoms : List Atom} (const : ∀ a ∈ atoms, a.pred?.isSome) :
    atoms.foldlM (seedAtom ctx []) (plan, []) =
      .ok ((atoms.map storedItem).foldl
        (fun plan item => plan.addAtom ctx item.1 item.2 []) plan, []) := by
  induction atoms generalizing plan with
  | nil => rfl
  | cons a atoms ih =>
    obtain ⟨p, hp⟩ := Option.isSome_iff_exists.mp (const a List.mem_cons_self)
    have first : seedAtom ctx [] (plan, []) a =
        .ok (plan.addAtom ctx (storedItem a).1 a [], []) := by
      simp [seedAtom, eq_const_of_pred hp, seedSource, storedItem, hp]
    rw [List.foldlM_cons, first, List.map_cons, List.foldl_cons]
    exact ih fun b hb => const b (List.mem_cons_of_mem a hb)

theorem foldlM_seedNegated_positive {atoms : List Atom} :
    (atoms.map BodyLiteral.positive).foldlM (seedNegated ctx) plan = .ok plan := by
  refine Fold.foldlM_eq_self fun l hl => ?_
  obtain ⟨a, _, rfl⟩ := List.mem_map.mp hl
  rfl

/-- The negated atoms of a conjunctive rule that hold can be added to a plan, by
either compiler. -/
theorem exists_foldlM_negated {f : Plan → BodyLiteral → Except String Plan} {neg : List Atom}
    (adds : ∀ plan a, a ∈ neg → PlanSpec ctx env ρ items plan →
      ∃ plan', f plan (.negated a) = .ok plan' ∧ PlanSpec ctx env ρ items plan')
    (spec : PlanSpec ctx env ρ items plan) :
    ∃ plan', (neg.map BodyLiteral.negated).foldlM f plan = .ok plan' ∧
      PlanSpec ctx env ρ items plan' := by
  induction neg generalizing plan with
  | nil => exact ⟨plan, rfl, spec⟩
  | cons a neg ih =>
    obtain ⟨mid, first, midSpec⟩ := adds plan a List.mem_cons_self spec
    obtain ⟨plan', rest, spec'⟩ :=
      ih (fun plan b hb => adds plan b (List.mem_cons_of_mem a hb)) midSpec
    refine ⟨plan', ?_, spec'⟩
    rw [List.map_cons, List.foldlM_cons, first]
    exact rest

/-- The steps of the seed compiler for other literals leave a conjunction alone. -/
theorem seedPlan_eq_ok {plan' : Plan} (atoms : ∀ l ∈ r.body, l.IsAtom)
    (first : (seedAtoms ctx r).foldlM (seedAtom ctx []) (Plan.empty, []) = .ok (plan, []))
    (second : r.body.foldlM (seedNegated ctx) plan = .ok plan') : seedPlan ctx r = .ok plan' := by
  have guards : r.body.filter BodyLiteral.isGuard = [] := by
    rw [List.filter_eq_nil_iff]
    intro l hl
    obtain ⟨a, rfl⟩ | ⟨a, rfl⟩ := atoms l hl <;> simp [BodyLiteral.isGuard]
  have filters : temporalFilters r = [] := by
    rw [temporalFilters, List.filterMap_eq_nil_iff]
    intro l hl
    obtain ⟨a, rfl⟩ | ⟨a, rfl⟩ := atoms l hl <;> rfl
  have sequential (vm : VarMap) : r.body.filterMap (sequentialCond ctx vm) = [] := by
    rw [List.filterMap_eq_nil_iff]
    intro l hl
    obtain ⟨a, rfl⟩ | ⟨a, rfl⟩ := atoms l hl <;> rfl
  have assigns (vm : VarMap) (body : List BodyLiteral) (atoms : ∀ l ∈ body, l.IsAtom) :
      body.foldl bindAssign vm = vm := by
    induction body with
    | nil => rfl
    | cons l body ih =>
      obtain ⟨a, rfl⟩ | ⟨a, rfl⟩ := atoms l List.mem_cons_self <;>
        exact ih fun l hl => atoms l (List.mem_cons_of_mem _ hl)
  have checks (vm : VarMap) (body : List BodyLiteral) (atoms : ∀ l ∈ body, l.IsAtom) :
      body.forM (checkBound r vm) = .ok () := by
    induction body with
    | nil => rfl
    | cons l body ih =>
      obtain ⟨a, rfl⟩ | ⟨a, rfl⟩ := atoms l List.mem_cons_self <;>
        exact ih fun l hl => atoms l (List.mem_cons_of_mem _ hl)
  simp only [seedPlan, guards, filters, first, second, bind, Except.bind, sequential,
    assigns _ _ atoms, checks _ _ atoms, List.filterMap_nil, List.append_nil]
  rfl

theorem Rule.Conjunctive.isAtom {scope : GraphScope} (conj : r.Conjunctive scope) :
    ∀ l ∈ r.body, l.IsAtom := by
  obtain ⟨neg, shape⟩ := conj.body
  intro l hl
  rw [shape, List.mem_append, List.mem_map, List.mem_map] at hl
  obtain ⟨a, _, rfl⟩ | ⟨a, _, rfl⟩ := hl
  · exact .inl ⟨a, rfl⟩
  · exact .inr ⟨a, rfl⟩

/-- Negated atoms that hold can be added by the seed compiler. -/
theorem exists_seedNegated {a : Atom} (spec : PlanSpec ctx env ρ items plan)
    (complete : ∀ b ∈ r.positiveAtoms, ∃ item ∈ items, item.2 = b)
    (conj : r.Conjunctive ctx.settings.ruleGraphScope) (ha : .negated a ∈ r.body)
    (same : I.scope = ctx.settings.ruleGraphScope)
    (stored : ∀ p, ∀ k ∈ ctx.stored p, k.quad p ∈ N) (holds : I.LiteralHolds r N ρ (.negated a)) :
    ∃ plan', seedNegated ctx plan (.negated a) = .ok plan' ∧ PlanSpec ctx env ρ items plan' := by
  obtain ⟨p, hp⟩ := Option.isSome_iff_exists.mp (conj.preds.2 _ ha)
  have absent := existsRow_eq_false spec complete (conj.negatable a ha) (eq_const_of_pred hp) same
    (stored p) holds
  simp only [seedNegated, eq_const_of_pred hp]
  split
  · exact ⟨_, rfl, spec.addCond (by simp [Database.holds, absent])⟩
  · exact ⟨_, rfl, spec.addCond (by simp [Database.holds, absent])⟩

theorem exists_of_forall_mem {α β : Type*} {R : α → β → Prop} {l : List α}
    (h : ∀ a ∈ l, ∃ b, R a b) : ∃ bs, List.Forall₂ R l bs := by
  induction l with
  | nil => exact ⟨[], .nil⟩
  | cons a l ih =>
    obtain ⟨b, hb⟩ := h a List.mem_cons_self
    obtain ⟨bs, hbs⟩ := ih fun a' ha' => h a' (List.mem_cons_of_mem a ha')
    exact ⟨b :: bs, .cons hb hbs⟩

@[simp] theorem mem_seedAtoms {a : Atom} : a ∈ seedAtoms ctx r ↔ a ∈ r.positiveAtoms := by
  unfold seedAtoms costOrderAtoms
  split
  · exact List.mem_insertionSort _
  · exact Iff.rfl

theorem complete_seedItems :
    ∀ b ∈ r.positiveAtoms, ∃ item ∈ (seedAtoms ctx r).map storedItem, item.2 = b := by
  intro b hb
  exact ⟨storedItem b, List.mem_map_of_mem (mem_seedAtoms.mpr hb), rfl⟩

/-- The seed compiler succeeds on a conjunctive rule, with a plan that is true of the
triples of an instance. -/
theorem exists_seedPlan {ordered : List Quad}
    (conj : r.Conjunctive ctx.settings.ruleGraphScope)
    (same : I.scope = ctx.settings.ruleGraphScope)
    (isMatch : List.Forall₂ (fun a b => a.Matches ctx.settings.ruleGraphScope ρ b)
      (seedAtoms ctx r) ordered)
    (literals : ∀ l ∈ r.body, I.LiteralHolds r N ρ l)
    (stored : (∃ a, .negated a ∈ r.body) → ∀ p, ∀ k ∈ ctx.stored p, k.quad p ∈ N) :
    ∃ plan, seedPlan ctx r = .ok plan ∧
      PlanSpec ctx (ordered.map Quad.key) ρ ((seedAtoms ctx r).map storedItem) plan := by
  have start : PlanSpec ctx (ordered.map Quad.key) ρ ((seedAtoms ctx r).map storedItem)
      (((seedAtoms ctx r).map storedItem).foldl
        (fun plan item => plan.addAtom ctx item.1 item.2 []) Plan.empty) := by
    refine planSpec_empty.foldl_addAtom [] rfl rfl ?_
    rw [List.forall₂_map_left_iff]
    exact isMatch
  obtain ⟨neg, shape⟩ := conj.body
  have inBody (a : Atom) (ha : a ∈ neg) : .negated a ∈ r.body := by
    rw [shape]
    exact List.mem_append.mpr (.inr (List.mem_map_of_mem ha))
  obtain ⟨plan, folded, spec⟩ := exists_foldlM_negated
    (fun plan a ha spec => exists_seedNegated spec complete_seedItems conj (inBody a ha) same
      (stored ⟨a, inBody a ha⟩) (literals _ (inBody a ha))) start
  refine ⟨plan, seedPlan_eq_ok conj.isAtom (foldlM_seedAtom ?_) ?_, spec⟩
  · intro a ha
    exact conj.preds.2 _ (Rule.mem_positiveAtoms.mp (mem_seedAtoms.mp ha))
  · rw [shape, List.foldlM_append, foldlM_seedNegated_positive]
    exact folded

/-- An instance with stored premises is a row of the seed of a non-recursive rule. -/
theorem produces_seed {rules : List Rule} (hr : r ∈ rules)
    (conj : r.Conjunctive ctx.settings.ruleGraphScope)
    (nonrecursive : ∀ p, r.headPred = some p → r.isRecursive p = false)
    (same : I.scope = ctx.settings.ruleGraphScope) (inst : I.Instance r N ρ chosen q)
    (premises : ∀ b ∈ chosen, b.key ∈ ctx.stored b.p)
    (stored : (∃ a, .negated a ∈ r.body) → ∀ p, ∀ k ∈ ctx.stored p, k.quad p ∈ N) :
    Produces ctx [] (seedStmts ctx rules) q := by
  -- choose the triples in the order in which the seed joins them
  have each (a : Atom) (ha : a ∈ seedAtoms ctx r) :
      ∃ b : Quad, a.Matches ctx.settings.ruleGraphScope ρ b ∧
        b.key ∈ ctx.rows [] (storedItem a).1 := by
    have ha' := mem_seedAtoms.mp ha
    obtain ⟨b, hb, isMatch⟩ := Fold.exists_right_of_forall₂ inst.atoms ha'
    obtain ⟨p, hp⟩ :=
      Option.isSome_iff_exists.mp (conj.preds.2 _ (Rule.mem_positiveAtoms.mp ha'))
    refine ⟨b, same ▸ isMatch.1, ?_⟩
    have pred : b.p = p := Interpretation.pred_of_matches isMatch.1 hp
    simp only [storedItem, hp, Option.getD_some, Database.rows, ← pred]
    exact premises b hb
  obtain ⟨ordered, hordered⟩ := exists_of_forall_mem each
  obtain ⟨plan, compiled, spec⟩ := exists_seedPlan conj same (hordered.imp fun _ _ h => h.1)
    inst.literals stored
  obtain ⟨head, hh, graph, hs, ho⟩ := conj.head
  obtain ⟨query, finished, from_, where_, selected⟩ :=
    exists_finish seedHeadOther spec complete_seedItems graph hs ho (inst.concludes hh)
  have pred : r.headPred = some q.p := Interpretation.headPred_of_instance inst conj.preds.1
  have headConst : head.p = .const q.p := by
    refine eq_const_of_pred ?_
    simpa [Rule.headPred, hh] using pred
  refine ⟨.select query, List.mem_filterMap.mpr ⟨r, hr, ?_⟩, ordered.map Quad.key, ?_, selected⟩
  · simp only [compileSingleRuleTo, hh, headConst, nonrecursive q.p pred, compileNonrecursiveRule,
      compiled, bind, Except.bind, finished]
    rfl
  · refine mem_envs_of_spec spec from_ where_ ?_
    rw [List.forall₂_map_left_iff]
    exact hordered.imp fun _ _ h => h.2

/-- An atom at position `x.2`, read as the variant for position `i` does. -/
def variantItem (i : Nat) (x : Atom × Nat) : Source × Atom :=
  (if x.2 = i then .delta (x.1.pred?.getD 0) else .stored (x.1.pred?.getD 0), x.1)

theorem nextAlias_addAtom {source : Source} {a : Atom} {pushed : List Cond} :
    (plan.addAtom ctx source a pushed).nextAlias = plan.nextAlias + 1 := by
  obtain ⟨on, items⟩ := from_addAtom ctx plan source a pushed
  simp [Plan.nextAlias, items]

theorem foldlM_variantLiteral {i : Nat} {atoms : List Atom} (const : ∀ a ∈ atoms, a.pred?.isSome) :
    (atoms.map BodyLiteral.positive).foldlM (variantLiteral ctx i) plan =
      .ok (((atoms.zipIdx plan.nextAlias).map (variantItem i)).foldl
        (fun plan item => plan.addAtom ctx item.1 item.2 []) plan) := by
  induction atoms generalizing plan with
  | nil => rfl
  | cons a atoms ih =>
    obtain ⟨p, hp⟩ := Option.isSome_iff_exists.mp (const a List.mem_cons_self)
    have first : variantLiteral ctx i plan (.positive a) =
        .ok (plan.addAtom ctx (variantItem i (a, plan.nextAlias)).1 a []) := by
      simp [variantLiteral, eq_const_of_pred hp, variantItem, hp]
    rw [List.map_cons, List.foldlM_cons, first, List.zipIdx_cons, List.map_cons, List.foldl_cons]
    have rest := @ih (plan.addAtom ctx (variantItem i (a, plan.nextAlias)).1 a [])
      fun b hb => const b (List.mem_cons_of_mem a hb)
    rw [nextAlias_addAtom] at rest
    exact rest

/-- The tables and atoms of the variant for position `i`. -/
def variantItems (r : Rule) (i : Nat) : List (Source × Atom) :=
  r.positiveAtoms.zipIdx.map (variantItem i)

theorem complete_variantItems {i : Nat} :
    ∀ b ∈ r.positiveAtoms, ∃ item ∈ variantItems r i, item.2 = b := by
  intro b hb
  obtain ⟨j, hj, rfl⟩ := List.getElem_of_mem hb
  refine ⟨variantItem i (r.positiveAtoms[j], j), List.mem_map_of_mem ?_, rfl⟩
  rw [List.mem_zipIdx_iff_getElem?]
  simp [hj]

theorem exists_variantNegated {i : Nat} {a : Atom} (spec : PlanSpec ctx env ρ items plan)
    (complete : ∀ b ∈ r.positiveAtoms, ∃ item ∈ items, item.2 = b)
    (conj : r.Conjunctive ctx.settings.ruleGraphScope) (ha : .negated a ∈ r.body)
    (same : I.scope = ctx.settings.ruleGraphScope)
    (stored : ∀ p, ∀ k ∈ ctx.stored p, k.quad p ∈ N) (holds : I.LiteralHolds r N ρ (.negated a)) :
    ∃ plan', variantLiteral ctx i plan (.negated a) = .ok plan' ∧
      PlanSpec ctx env ρ items plan' := by
  obtain ⟨p, hp⟩ := Option.isSome_iff_exists.mp (conj.preds.2 _ ha)
  have absent := existsRow_eq_false spec complete (conj.negatable a ha) (eq_const_of_pred hp) same
    (stored p) holds
  simp only [variantLiteral, eq_const_of_pred hp]
  exact ⟨_, rfl, spec.addCond (by simp [Database.holds, absent])⟩

/-- The variant compiler succeeds on a conjunctive rule at every position. -/
theorem exists_variantPlan (i : Nat) (conj : r.Conjunctive ctx.settings.ruleGraphScope)
    (same : I.scope = ctx.settings.ruleGraphScope) (inst : I.Instance r N ρ chosen q)
    (stored : (∃ a, .negated a ∈ r.body) → ∀ p, ∀ k ∈ ctx.stored p, k.quad p ∈ N) :
    ∃ plan, variantPlan ctx r i = .ok plan ∧
      PlanSpec ctx (chosen.map Quad.key) ρ (variantItems r i) plan := by
  have start : PlanSpec ctx (chosen.map Quad.key) ρ (variantItems r i)
      ((variantItems r i).foldl
        (fun plan item => plan.addAtom ctx item.1 item.2 []) Plan.empty) := by
    refine planSpec_empty.foldl_addAtom [] rfl rfl ?_
    have atoms : List.Forall₂ (fun a b => a.Matches ctx.settings.ruleGraphScope ρ b)
        (r.positiveAtoms.zipIdx.map Prod.fst) chosen := by
      rw [List.zipIdx_map_fst]
      exact inst.atoms.imp fun _ _ h => same ▸ h.1
    rw [List.forall₂_map_left_iff] at atoms
    exact List.forall₂_map_left_iff.mpr atoms
  obtain ⟨neg, shape⟩ := conj.body
  have inBody (a : Atom) (ha : a ∈ neg) : .negated a ∈ r.body := by
    rw [shape]
    exact List.mem_append.mpr (.inr (List.mem_map_of_mem ha))
  obtain ⟨plan, folded, spec⟩ := exists_foldlM_negated
    (fun plan a ha spec => exists_variantNegated (i := i) spec complete_variantItems conj
      (inBody a ha) same (stored ⟨a, inBody a ha⟩) (inst.literals _ (inBody a ha))) start
  refine ⟨plan, ?_, spec⟩
  rw [variantPlan, shape, List.foldlM_append, foldlM_variantLiteral]
  · exact folded
  · intro a ha
    exact conj.preds.2 _ (Rule.mem_positiveAtoms.mp ha)

theorem mem_deltaPositions {derived : List TermId} {i : Nat} :
    i ∈ deltaPositions r derived ↔
      ∃ a p, r.positiveAtoms[i]? = some a ∧ a.pred? = some p ∧ p ∈ derived := by
  simp only [deltaPositions, List.mem_filter, List.mem_range]
  constructor
  · intro ⟨bound, isDerived⟩
    rw [List.getElem?_eq_getElem bound, Option.bind_some] at isDerived
    cases hp : r.positiveAtoms[i].pred? with
    | none => simp [hp] at isDerived
    | some p =>
      exact ⟨_, p, List.getElem?_eq_getElem bound, hp, by simpa [hp] using isDerived⟩
  · intro ⟨a, p, ha, hp, mem⟩
    obtain ⟨bound, rfl⟩ := List.getElem?_eq_some_iff.mp ha
    simp [bound, hp, mem]

/-- An instance with one derived premise at a position of a derived predicate, and
stored premises elsewhere, is a row of the variant for that position. -/
theorem produces_variant {rules : List Rule} {derived : List TermId} (hr : r ∈ rules)
    (conj : r.Conjunctive ctx.settings.ruleGraphScope)
    (same : I.scope = ctx.settings.ruleGraphScope) (inst : I.Instance r N ρ chosen q)
    {i : Nat} {b : Quad} (position : i ∈ deltaPositions r derived) (hb : chosen[i]? = some b)
    (premises : ∀ j c, j ≠ i → chosen[j]? = some c → c.key ∈ ctx.stored c.p)
    (stored : (∃ a, .negated a ∈ r.body) → ∀ p, ∀ k ∈ ctx.stored p, k.quad p ∈ N) :
    Produces ctx [b] (variantStmts ctx derived rules) q := by
  obtain ⟨head, hh, graph, hs, ho⟩ := conj.head
  have pred : r.headPred = some q.p := Interpretation.headPred_of_instance inst conj.preds.1
  have headConst : head.p = .const q.p := by
    refine eq_const_of_pred ?_
    simpa [Rule.headPred, hh] using pred
  have compiles (j : Nat) : ∃ query, compileRuleWithOneDeltaAtom ctx r head j = .ok query ∧
      ∃ plan, PlanSpec ctx (chosen.map Quad.key) ρ (variantItems r j) plan ∧
        query.from_ = plan.from_ ∧ query.where_ = plan.where_ ∧
        query.select (chosen.map Quad.key) = some q.key := by
    obtain ⟨plan, compiled, spec⟩ := exists_variantPlan j conj same inst stored
    obtain ⟨query, finished, from_, where_, selected⟩ :=
      exists_finish (fun _ => .error "wildcard/invalid in head not allowed") spec
        complete_variantItems graph hs ho (inst.concludes hh)
    refine ⟨query, ?_, plan, spec, from_, where_, selected⟩
    simp only [compileRuleWithOneDeltaAtom, compiled, bind, Except.bind, finished]
  obtain ⟨variants, hvariants⟩ : ∃ variants, compileRuleDeltaVariantsTo ctx r
      derived = .ok variants := by
    simp only [compileRuleDeltaVariantsTo, hh, headConst]
    refine Fold.exists_mapM fun j _ => ?_
    obtain ⟨query, compiled, _⟩ := compiles j
    exact ⟨(q.p, query), by rw [compiled]; rfl⟩
  obtain ⟨query, compiled, plan, spec, from_, where_, selected⟩ := compiles i
  have isVariant : (q.p, query) ∈ variants :=
    (mem_compileRuleDeltaVariantsTo hvariants).mpr ⟨head, hh, headConst, i, position, compiled⟩
  refine ⟨.select query, mem_variantStmts.mpr ⟨r, hr, variants, hvariants, query, isVariant, rfl⟩,
    chosen.map Quad.key, ?_, selected⟩
  refine mem_envs_of_spec spec from_ where_ ?_
  have lengths := inst.atoms.length_eq
  rw [List.forall₂_iff_get]
  refine ⟨by simp [variantItems, lengths], ?_⟩
  intro j hj hj'
  have isMatch : I.AtomMatches r ρ r.positiveAtoms[j] chosen[j] :=
    (List.forall₂_iff_get.mp inst.atoms).2 j (lengths ▸ hj') hj'
  obtain ⟨p, hp⟩ := Option.isSome_iff_exists.mp
    (conj.preds.2 _ (Rule.mem_positiveAtoms.mp (List.getElem_mem (lengths ▸ hj'))))
  have chosenPred : chosen[j].p = p := Interpretation.pred_of_matches isMatch.1 hp
  have item : (variantItems r i)[j] = variantItem i (r.positiveAtoms[j], j) := by
    simp [variantItems]
  simp only [List.get_eq_getElem, item, variantItem, hp, Option.getD_some]
  by_cases here : j = i
  · subst here
    rw [if_pos rfl, mem_rows_delta, List.mem_singleton, ← chosenPred, Quad.key_quad]
    rw [List.getElem?_eq_getElem hj'] at hb
    exact Option.some.inj hb
  · rw [if_neg here, ← chosenPred]
    exact premises j _ here (List.getElem?_eq_getElem hj')

end Covers

/-- The premises of an instance are at hand when the statements run: all are stored,
and the rule is not self-recursive; or one, of a derived predicate, is in `found`, and
the others are stored. -/
def AtHand (ctx : Context) (derived : List TermId) (found : Set Quad) (r : Rule)
    (chosen : List Quad) : Prop :=
  ((∀ p, r.headPred = some p → r.isRecursive p = false) ∧ ∀ b ∈ chosen, b ∈ ctx.facts) ∨
    ∃ i ∈ deltaPositions r derived, ∃ a ∈ found, chosen[i]? = some a ∧
      ∀ j c, j ≠ i → chosen[j]? = some c → c ∈ ctx.facts

section AtHand

variable {ctx : Context} {I : Interpretation} {derived : List TermId} {active : List Rule}
  {found N : Set Quad} {r : Rule} {ρ : Valuation} {chosen : List Quad} {q : Quad}

theorem AtHand.mono {found' : Set Quad} (le : found ⊆ found')
    (h : AtHand ctx derived found r chosen) : AtHand ctx derived found' r chosen := by
  refine h.imp_right ?_
  intro ⟨i, position, a, ha, here⟩
  exact ⟨i, position, a, le ha, here⟩

/-- Such instances of conjunctive rules are rows. -/
theorem produces_of_atHand (hr : r ∈ active) (conj : r.Conjunctive ctx.settings.ruleGraphScope)
    (same : I.scope = ctx.settings.ruleGraphScope) (inst : I.Instance r N ρ chosen q)
    (stored : (∃ a, .negated a ∈ r.body) → ctx.facts ⊆ N)
    (atHand : AtHand ctx derived found r chosen) :
    q ∈ (ruleEngine ctx derived active).seed ∨
      ∃ a ∈ found, (ruleEngine ctx derived active).step a q := by
  have rows : (∃ a, .negated a ∈ r.body) → ∀ p, ∀ k ∈ ctx.stored p, k.quad p ∈ N :=
    fun negation _ _ hk => stored negation hk
  cases atHand with
  | inl allStored => exact .inl (produces_seed hr conj allStored.1 same inst allStored.2 rows)
  | inr variant =>
    obtain ⟨i, position, a, ha, here, others⟩ := variant
    exact .inr ⟨a, ha, produces_variant hr conj same inst position here others rows⟩

/-- What an engine has found before its last round. -/
def foundBefore (E : Engine Quad) (n : Nat) : Set Quad := {a | ∃ k < n, a ∈ E.stage k}

theorem mem_stage_of_atHand {n : Nat} (hr : r ∈ active)
    (conj : r.Conjunctive ctx.settings.ruleGraphScope)
    (same : I.scope = ctx.settings.ruleGraphScope) (inst : I.Instance r N ρ chosen q)
    (stored : (∃ a, .negated a ∈ r.body) → ctx.facts ⊆ N)
    (atHand : AtHand ctx derived (foundBefore (ruleEngine ctx derived active) n) r chosen) :
    q ∈ (ruleEngine ctx derived active).stage n := by
  cases produces_of_atHand hr conj same inst stored atHand with
  | inl seed => exact Engine.seed_subset_stage n seed
  | inr step =>
    obtain ⟨a, ⟨k, lt, ha⟩, step⟩ := step
    exact Engine.mem_stage_of_step lt ha step

end AtHand

end PgRipple.Datalog
