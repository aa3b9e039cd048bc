import PgRipple.Lib.Fold
import PgRipple.Datalog.Materialise

/-!
# What the evaluation loop computes

A delta variant reads the derived triples at exactly one position, so each row it
produces comes from one derived triple. The loop is therefore an `Engine` on
quads: the seeds are the rows of the seed statements, and a step goes from a
derived triple to what a variant produces from it and the stored triples. The
drivers add the last stage of that engine to the visible triples, and nothing else.
-/

namespace PgRipple.Datalog

open Storage

/-- The alias reads a table of derived triples. -/
def Source.isDelta : Source → Bool
  | .delta _ => true
  | _ => false

section Envs

variable {db : Database} {delta delta' : List Quad} {q : Query} {env : List Key}

theorem rows_of_not_isDelta {source : Source} (h : source.isDelta = false) :
    db.rows delta source = db.rows delta' source := by
  cases source with
  | delta p => cases h
  | stored p => rfl
  | temporal p filters => rfl

theorem mem_rows_delta {p : TermId} {k : Key} :
    k ∈ db.rows delta (.delta p) ↔ k.quad p ∈ delta := by
  simp only [Database.rows, List.mem_map, List.mem_filter, decide_eq_true_eq]
  constructor
  · rintro ⟨a, ⟨ha, rfl⟩, rfl⟩
    exact ha
  · intro h
    exact ⟨_, ⟨h, rfl⟩, rfl⟩

/-- Exactly the alias at position `i` reads derived triples. -/
def Query.DeltaAt (q : Query) (i : Nat) : Prop :=
  i < q.from_.length ∧
    ∀ j (h : j < q.from_.length), (q.from_[j].source.isDelta = true ↔ j = i)

/-- The joined rows of such a query come from one derived triple each. -/
theorem Query.DeltaAt.mem_envs_iff {i : Nat} (h : q.DeltaAt i) :
    env ∈ q.envs db delta ↔ ∃ a ∈ delta, env ∈ q.envs db [a] := by
  obtain ⟨bound, only⟩ := h
  -- away from `i` the table of derived triples is not read
  have elsewhere (d d' : List Quad) (j : Nat) (hj : j < q.from_.length) (ne : j ≠ i) :
      db.rows d q.from_[j].source = db.rows d' q.from_[j].source := by
    refine rows_of_not_isDelta ?_
    rw [Bool.eq_false_iff]
    exact fun isDelta => ne ((only j hj).mp isDelta)
  obtain ⟨p, here⟩ : ∃ p, q.from_[i].source = .delta p := by
    have isDelta := (only i bound).mpr rfl
    cases source : q.from_[i].source with
    | delta p => exact ⟨p, rfl⟩
    | stored p => simp [source, Source.isDelta] at isDelta
    | temporal p filters => simp [source, Source.isDelta] at isDelta
  simp only [Query.mem_envs, List.forall₂_iff_get, List.get_eq_getElem]
  constructor
  · intro ⟨⟨lengths, rows⟩, conds⟩
    have atDelta := rows i (lengths ▸ bound) bound
    rw [here, mem_rows_delta] at atDelta
    refine ⟨_, atDelta, ⟨lengths, ?_⟩, conds⟩
    intro j hj hj'
    by_cases same : j = i
    · subst same
      rw [here, mem_rows_delta]
      exact List.mem_singleton_self _
    · rw [elsewhere _ delta j hj' same]
      exact rows j hj hj'
  · intro ⟨a, ha, ⟨lengths, rows⟩, conds⟩
    refine ⟨⟨lengths, ?_⟩, conds⟩
    intro j hj hj'
    have row := rows j hj hj'
    by_cases same : j = i
    · subst same
      rw [here, mem_rows_delta] at row ⊢
      exact List.mem_singleton.mp row ▸ ha
    · rw [elsewhere delta [a] j hj' same]
      exact row

end Envs

section Variants

variable {ctx : Context} {rule : Rule} {plan : Plan} {deltaPos : Nat}

theorem from_addAtom (ctx : Context) (plan : Plan) (source : Source) (a : Atom)
    (pushed : List Cond) :
    ∃ on, (plan.addAtom ctx source a pushed).from_ = plan.from_ ++ [⟨source, on⟩] := by
  simp only [Plan.addAtom]
  split
  · exact ⟨_, rfl⟩
  · exact ⟨_, rfl⟩

/-- The `FROM` items of a variant under construction. -/
structure VariantItems (deltaPos : Nat) (pre : List BodyLiteral) (plan : Plan) : Prop where
  length : plan.from_.length = (positives pre).length
  delta : ∀ j (h : j < plan.from_.length), (plan.from_[j].source.isDelta = true ↔ j = deltaPos)

theorem VariantItems.addAtom {pre : List BodyLiteral} (h : VariantItems deltaPos pre plan)
    {source : Source} {a : Atom} (here : source.isDelta = true ↔ plan.nextAlias = deltaPos) :
    VariantItems deltaPos (pre ++ [.positive a]) (plan.addAtom ctx source a []) := by
  obtain ⟨on, items⟩ := from_addAtom ctx plan source a []
  refine ⟨?_, ?_⟩
  · rw [items, List.length_append, h.length, positives_append, List.length_append]
    rfl
  · intro j hj
    simp only [items] at hj ⊢
    by_cases old : j < plan.from_.length
    · rw [List.getElem_append_left old]
      exact h.delta j old
    · have last : j = plan.from_.length := by
        rw [List.length_append, List.length_singleton] at hj
        omega
      subst last
      rw [List.getElem_append_right le_rfl]
      simpa [Plan.nextAlias] using here

/-- Literals other than positive atoms leave the `FROM` items alone. -/
theorem VariantItems.of_from_eq {pre : List BodyLiteral} {plan' : Plan} {l : BodyLiteral}
    (h : VariantItems deltaPos pre plan) (same : plan'.from_ = plan.from_)
    (other : positives [l] = []) : VariantItems deltaPos (pre ++ [l]) plan' := by
  refine ⟨?_, ?_⟩
  · rw [same, h.length, positives_append, other, List.append_nil]
  · intro j hj
    simp only [same] at hj ⊢
    exact h.delta j hj

theorem VariantItems.literal {pre : List BodyLiteral} {plan' : Plan} {l : BodyLiteral}
    (h : VariantItems deltaPos pre plan)
    (compiled : variantLiteral ctx deltaPos plan l = .ok plan') :
    VariantItems deltaPos (pre ++ [l]) plan' := by
  cases l with
  | positive a =>
    simp only [variantLiteral] at compiled
    split at compiled
    · cases compiled
      refine h.addAtom ?_
      by_cases here : plan.nextAlias = deltaPos <;> simp [here, Source.isDelta]
    · cases compiled
  | negated a =>
    simp only [variantLiteral] at compiled
    split at compiled
    · cases compiled
      exact h.of_from_eq rfl rfl
    · cases compiled
  | compare l op r =>
    cases compiled
    exact h.of_from_eq rfl rfl
  | stringBuiltin b =>
    cases compiled
    exact h.of_from_eq rfl rfl
  | assign v l op r =>
    cases compiled
    exact h.of_from_eq rfl rfl
  | aggregate a =>
    cases compiled
    exact h.of_from_eq rfl rfl
  | temporalFilter f =>
    cases compiled
    exact h.of_from_eq rfl rfl

theorem variantItems_variantPlan (h : variantPlan ctx rule deltaPos = .ok plan) :
    VariantItems deltaPos rule.body plan := by
  refine Fold.foldlM_prefix (P := VariantItems deltaPos) ?_ ?_ h
  · exact ⟨rfl, fun j hj => absurd hj (Nat.not_lt_zero j)⟩
  · intro pre l plan plan' items compiled
    exact items.literal compiled

theorem finish_eq_ok {head : Atom} {other : Term → Except String Expr} {q : Query} :
    plan.finish head other = .ok q ↔
      ∃ s o, headColumn plan.varMap other head.s = .ok s ∧
        headColumn plan.varMap other head.o = .ok o ∧
        q = ⟨plan.from_, plan.where_, s, o, headGExpr head.g⟩ := by
  constructor
  · intro h
    obtain ⟨s, hs, h⟩ := Fold.bind_eq_ok.mp h
    obtain ⟨o, ho, h⟩ := Fold.bind_eq_ok.mp h
    cases h
    exact ⟨s, o, hs, ho, rfl⟩
  · rintro ⟨s, o, hs, ho, rfl⟩
    simp only [Plan.finish, hs, ho]
    rfl

/-- What is known about the variants of a rule set. -/
theorem mem_variantStmts {derived : List TermId} {rules : List Rule} {p : TermId} {stmt : Stmt} :
    (p, stmt) ∈ variantStmts ctx derived rules ↔
      ∃ r ∈ rules, ∃ variants, compileRuleDeltaVariantsTo ctx r derived = .ok variants ∧
        ∃ q, (p, q) ∈ variants ∧ stmt = .select q := by
  simp only [variantStmts, List.mem_flatMap, List.mem_map]
  constructor
  · rintro ⟨r, hr, ⟨p', q⟩, hq, same⟩
    cases same
    cases compiled : compileRuleDeltaVariantsTo ctx r derived with
    | error e =>
      rw [compiled] at hq
      cases hq
    | ok variants =>
      rw [compiled] at hq
      exact ⟨r, hr, variants, compiled, q, hq, rfl⟩
  · rintro ⟨r, hr, variants, compiled, q, hq, rfl⟩
    refine ⟨r, hr, (p, q), ?_, rfl⟩
    rw [compiled]
    exact hq

/-- The variants of one rule, one for each position of a derived predicate. -/
theorem mem_compileRuleDeltaVariantsTo {derived : List TermId} {variants : List (TermId × Query)}
    (h : compileRuleDeltaVariantsTo ctx rule derived = .ok variants) {p : TermId} {q : Query} :
    (p, q) ∈ variants ↔
      ∃ head, rule.head = some head ∧ head.p = .const p ∧
        ∃ i ∈ deltaPositions rule derived, compileRuleWithOneDeltaAtom ctx rule head i = .ok q := by
  unfold compileRuleDeltaVariantsTo at h
  cases hh : rule.head with
  | none =>
    rw [hh] at h
    cases h
    simp
  | some head =>
    simp only [hh] at h
    split at h
    · rename_i p' hp
      rw [Fold.mem_of_mapM h]
      constructor
      · intro ⟨i, hi, compiled⟩
        obtain ⟨q', hq', same⟩ := Fold.bind_eq_ok.mp compiled
        cases same
        exact ⟨head, rfl, hp, i, hi, hq'⟩
      · rintro ⟨head', same, hp', i, hi, compiled⟩
        cases same
        rw [hp] at hp'
        cases hp'
        refine ⟨i, hi, ?_⟩
        rw [compiled]
        rfl
    · cases h

theorem deltaAt_of_compile {head : Atom} {q : Query} (bound : deltaPos < rule.positiveAtoms.length)
    (h : compileRuleWithOneDeltaAtom ctx rule head deltaPos = .ok q) : q.DeltaAt deltaPos := by
  obtain ⟨plan, hplan, h⟩ := Fold.bind_eq_ok.mp h
  obtain ⟨s, o, _, _, rfl⟩ := finish_eq_ok.mp h
  have items := variantItems_variantPlan hplan
  exact ⟨by rw [items.length]; exact bound, items.delta⟩

end Variants

/-- The statement produces a row. -/
def Stmt.Yields (db : Database) (delta : List Quad) : Stmt → Key → Prop
  | .select q, k => ∃ env ∈ q.envs db delta, q.select env = some k
  | .recursive q, k => k ∈ q.exec db

theorem Stmt.mem_exec {db : Database} {delta : List Quad} {stmt : Stmt} {rows : List Key}
    (h : stmt.exec db delta = some rows) {k : Key} : k ∈ rows ↔ stmt.Yields db delta k := by
  cases stmt with
  | select q => exact Query.mem_exec h
  | recursive q =>
    cases h
    exact Iff.rfl

/-- What a list of statements produces. -/
def Produces (ctx : Context) (delta : List Quad) (stmts : List (TermId × Stmt)) (b : Quad) : Prop :=
  ∃ stmt, (b.p, stmt) ∈ stmts ∧ stmt.Yields ctx.toDatabase delta b.key

section Evaluate

variable {ctx : Context} {delta : List Quad} {seeds variants : List (TermId × Stmt)}

theorem mem_runStmts {stmts : List (TermId × Stmt)} {result : List Quad}
    (h : runStmts ctx delta stmts = some result) {b : Quad} :
    b ∈ result ↔ Produces ctx delta stmts b := by
  induction stmts generalizing result with
  | nil =>
    cases h
    simp [Produces]
  | cons first rest ih =>
    obtain ⟨p, stmt⟩ := first
    obtain ⟨rows, hrows, h⟩ := Option.bind_eq_some_iff.mp h
    obtain ⟨more, hmore, h⟩ := Option.bind_eq_some_iff.mp h
    cases h
    rw [List.mem_append, ih hmore, List.mem_map]
    constructor
    · rintro (⟨k, hk, rfl⟩ | ⟨stmt', hstmt', yields⟩)
      · exact ⟨stmt, List.mem_cons_self, (Stmt.mem_exec hrows).mp hk⟩
      · exact ⟨stmt', List.mem_cons_of_mem _ hstmt', yields⟩
    · intro ⟨stmt', hstmt', yields⟩
      cases List.mem_cons.mp hstmt' with
      | inl same =>
        cases same
        exact .inl ⟨b.key, (Stmt.mem_exec hrows).mpr yields, b.key_quad⟩
      | inr later => exact .inr ⟨stmt', later, yields⟩

/-- The engine that the loop runs. -/
def engine (ctx : Context) (seeds variants : List (TermId × Stmt)) : Engine Quad where
  seed := {b | Produces ctx [] seeds b}
  step a b := Produces ctx [a] variants b

/-- The engine of a rule set. -/
def ruleEngine (ctx : Context) (derived : List TermId) (rules : List Rule) : Engine Quad :=
  engine ctx (seedStmts ctx rules) (variantStmts ctx derived rules)

/-- Variants produce nothing that does not come from a single derived triple. -/
theorem produces_variantStmts {derived : List TermId} {rules : List Rule} {b : Quad} :
    Produces ctx delta (variantStmts ctx derived rules) b ↔
      ∃ a ∈ delta, Produces ctx [a] (variantStmts ctx derived rules) b := by
  have single (stmt : Stmt) (hstmt : (b.p, stmt) ∈ variantStmts ctx derived rules) :
      stmt.Yields ctx.toDatabase delta b.key ↔
        ∃ a ∈ delta, stmt.Yields ctx.toDatabase [a] b.key := by
    obtain ⟨r, _, variants, compiled, q, hq, rfl⟩ := mem_variantStmts.mp hstmt
    obtain ⟨head, _, _, i, hi, hquery⟩ := (mem_compileRuleDeltaVariantsTo compiled).mp hq
    have bound : i < r.positiveAtoms.length := List.mem_range.mp (List.mem_filter.mp hi).1
    have position : q.DeltaAt i := deltaAt_of_compile bound hquery
    constructor
    · intro ⟨env, henv, selected⟩
      obtain ⟨a, ha, henv⟩ := position.mem_envs_iff.mp henv
      exact ⟨a, ha, env, henv, selected⟩
    · intro ⟨a, ha, env, henv, selected⟩
      exact ⟨env, position.mem_envs_iff.mpr ⟨a, ha, henv⟩, selected⟩
  constructor
  · intro ⟨stmt, hstmt, yields⟩
    obtain ⟨a, ha, yields⟩ := (single stmt hstmt).mp yields
    exact ⟨a, ha, stmt, hstmt, yields⟩
  · intro ⟨a, ha, stmt, hstmt, yields⟩
    exact ⟨stmt, hstmt, (single stmt hstmt).mpr ⟨a, ha, yields⟩⟩

/-- A round goes from the derived triples to their successors. -/
theorem mem_round {derived : List TermId} {rules : List Rule} (found new : List Quad)
    (h : (runStmts ctx found (variantStmts ctx derived rules)).map List.dedup = some new)
    (b : Quad) :
    b ∈ new ↔ ∃ a ∈ found, (engine ctx seeds (variantStmts ctx derived rules)).step a b := by
  obtain ⟨rows, hrows, rfl⟩ := Option.map_eq_some_iff.mp h
  rw [List.mem_dedup, mem_runStmts hrows, produces_variantStmts]
  exact Iff.rfl

variable {derived : List TermId} {rules : List Rule} {rounds iterations : Nat} {found : List Quad}

/-- The loop ends in the stage of its bound. -/
theorem mem_evaluate
    (h : evaluate ctx seeds (variantStmts ctx derived rules) rounds = some (found, iterations))
    (b : Quad) :
    b ∈ found ↔ b ∈ (engine ctx seeds (variantStmts ctx derived rules)).stage rounds := by
  obtain ⟨start, hstart, h⟩ := Option.bind_eq_some_iff.mp h
  have first (a : Quad) : a ∈ start.dedup ↔
      a ∈ (engine ctx seeds (variantStmts ctx derived rules)).stage 0 := by
    rw [List.mem_dedup, mem_runStmts hstart]
    exact Iff.rfl
  have := Engine.mem_saturate_iff mem_round first h b
  rwa [Nat.zero_add] at this

/-- A loop that ends before its limit has nothing left to derive. -/
theorem evaluate_closed
    (h : evaluate ctx seeds (variantStmts ctx derived rules) rounds = some (found, iterations))
    (early : iterations < 1 + rounds) {a b : Quad} (ha : a ∈ found)
    (step : (engine ctx seeds (variantStmts ctx derived rules)).step a b) : b ∈ found := by
  obtain ⟨start, _, h⟩ := Option.bind_eq_some_iff.mp h
  exact Engine.saturate_closed (E := engine ctx seeds (variantStmts ctx derived rules))
    mem_round h early ha step

end Evaluate

section Drivers

variable {ctx : Context} {derived : List TermId} {rules : List Rule}

/-- A rule that compiles to a seed has a constant head predicate. -/
theorem compileSingleRuleTo_eq_ok {r : Rule} {p : TermId} {stmt : Stmt} :
    compileSingleRuleTo ctx r = .ok (p, stmt) ↔
      ∃ head, r.head = some head ∧ head.p = .const p ∧
        ((r.isRecursive p = true ∧
            ∃ q, compileRecursiveRule ctx r head p = .ok q ∧ stmt = .recursive q) ∨
          (r.isRecursive p = false ∧
            ∃ q, compileNonrecursiveRule ctx r head = .ok q ∧ stmt = .select q)) := by
  constructor
  · intro h
    unfold compileSingleRuleTo at h
    cases hh : r.head with
    | none => simp [hh] at h
    | some head =>
      simp only [hh] at h
      split at h
      · rename_i p' hp
        split at h
        · rename_i recursive
          obtain ⟨q, hq, same⟩ := Fold.bind_eq_ok.mp h
          cases same
          exact ⟨head, rfl, hp, .inl ⟨recursive, q, hq, rfl⟩⟩
        · rename_i nonrecursive
          obtain ⟨q, hq, same⟩ := Fold.bind_eq_ok.mp h
          cases same
          exact ⟨head, rfl, hp, .inr ⟨by simpa using nonrecursive, q, hq, rfl⟩⟩
      · cases h
      · cases h
  · rintro ⟨head, hh, hp, ⟨recursive, q, hq, rfl⟩ | ⟨nonrecursive, q, hq, rfl⟩⟩
    · simp only [compileSingleRuleTo, hh, hp, recursive, if_true, hq]
      rfl
    · simp only [compileSingleRuleTo, hh, hp, nonrecursive, Bool.false_eq_true, if_false, hq]
      rfl

theorem mem_seedStmts {p : TermId} {stmt : Stmt} :
    (p, stmt) ∈ seedStmts ctx rules ↔
      ∃ r ∈ rules, compileSingleRuleTo ctx r = .ok (p, stmt) := by
  simp only [seedStmts, List.mem_filterMap]
  refine exists_congr fun r => and_congr_right fun _ => ?_
  cases compileSingleRuleTo ctx r with
  | error e => simp [Except.toOption]
  | ok x => simp [Except.toOption]

/-- Statements only derive triples of head predicates. -/
theorem mem_derived_of_seed {b : Quad} (h : Produces ctx [] (seedStmts ctx rules) b) :
    ∃ r ∈ rules, r.headPred = some b.p := by
  obtain ⟨stmt, hstmt, _⟩ := h
  obtain ⟨r, hr, compiled⟩ := mem_seedStmts.mp hstmt
  obtain ⟨head, hh, hp, _⟩ := compileSingleRuleTo_eq_ok.mp compiled
  exact ⟨r, hr, by simp [Rule.headPred, hh, Atom.pred?, hp]⟩

theorem mem_derived_of_step {a b : Quad}
    (h : Produces ctx [a] (variantStmts ctx derived rules) b) :
    ∃ r ∈ rules, r.headPred = some b.p := by
  obtain ⟨stmt, hstmt, _⟩ := h
  obtain ⟨r, hr, variants, compiled, q, hq, rfl⟩ := mem_variantStmts.mp hstmt
  obtain ⟨head, hh, hp, _⟩ := (mem_compileRuleDeltaVariantsTo compiled).mp hq
  exact ⟨r, hr, by simp [Rule.headPred, hh, Atom.pred?, hp]⟩

/-- Whatever the engine of a rule set finds has the head predicate of a rule. -/
theorem headPred_of_mem_stage {n : Nat} {b : Quad}
    (h : b ∈ (ruleEngine ctx derived rules).stage n) : ∃ r ∈ rules, r.headPred = some b.p := by
  have all : (ruleEngine ctx derived rules).stage n ⊆ {b | ∃ r ∈ rules, r.headPred = some b.p} :=
    Engine.stage_subset_iff.mpr
      ⟨fun _ seed => mem_derived_of_seed seed, fun _ _ _ _ _ _ step => mem_derived_of_step step⟩
  exact all h

/-- The engine that `run_seminaive_inner` runs. -/
def innerEngine (env : Environment) (rules : List Rule) (st : Store) : Engine Quad :=
  ruleEngine (env.context st) (derivedPredIds rules) rules

/-- The engine that `run_inference_seminaive` runs. -/
def inferenceEngine (env : Environment) (rules : List Rule) (st : Store) : Engine Quad :=
  ruleEngine (env.context st) (derivedPredIds (canonicalRules (env.context st) rules))
    (activeRules (canonicalRules (env.context st) rules))

variable {env : Environment} {session : Session} {st st' : Store} {report : Report}
  {found : List Quad} {iterations : Nat} {q : Quad}

theorem visible_materialise_evaluate {active : List Rule} (subset : ∀ r ∈ active, r ∈ rules)
    (h : evaluateRules ctx (derivedPredIds rules) active = some (found, iterations)) :
    (materialise session (derivedPredIds rules) found st).2.Visible q ↔
      st.Visible q ∨ q ∈ (ruleEngine ctx (derivedPredIds rules) active).stage
        (maxIterations - 1) := by
  rw [visible_materialise, mem_evaluate h]
  refine or_congr_right (and_iff_left_of_imp ?_)
  intro stage
  obtain ⟨r, hr, pred⟩ := headPred_of_mem_stage stage
  exact mem_derivedPredIds.mpr ⟨r, subset r hr, pred⟩

/-- `run_seminaive_inner` adds what its engine finds. -/
theorem visible_runSeminaiveInner
    (h : runSeminaiveInner env session rules st = some (report, st')) :
    st'.Visible q ↔ st.Visible q ∨ q ∈ (innerEngine env rules st).stage (maxIterations - 1) := by
  unfold runSeminaiveInner at h
  dsimp only at h
  split at h
  · rename_i empty
    cases h
    refine (or_iff_left ?_).symm
    intro stage
    obtain ⟨r, hr, pred⟩ := headPred_of_mem_stage stage
    have := mem_derivedPredIds.mpr ⟨r, hr, pred⟩
    rw [List.isEmpty_iff.mp empty] at this
    cases this
  · obtain ⟨⟨found, iterations⟩, evaluated, h⟩ := Option.bind_eq_some_iff.mp h
    cases h
    exact visible_materialise_evaluate (fun r hr => hr) evaluated

theorem isDedicated_runSeminaiveInner {p : TermId}
    (h : runSeminaiveInner env session rules st = some (report, st')) :
    st'.isDedicated p = st.isDedicated p := by
  unfold runSeminaiveInner at h
  dsimp only at h
  split at h
  · cases h
    rfl
  · obtain ⟨⟨found, iterations⟩, -, h⟩ := Option.bind_eq_some_iff.mp h
    cases h
    exact isDedicated_materialise

theorem canonicalRules_nil : canonicalRules ctx [] = [] := by
  unfold canonicalRules
  split <;> rfl

/-- `run_inference_seminaive` adds what its engine finds. -/
theorem visible_runInferenceSeminaive
    (h : runInferenceSeminaive env session rules st = some (report, st')) :
    st'.Visible q ↔ st.Visible q ∨ q ∈ (inferenceEngine env rules st).stage
      (maxIterations - 1) := by
  unfold runInferenceSeminaive at h
  split at h
  · rename_i empty
    cases h
    cases List.isEmpty_iff.mp empty
    refine (or_iff_left ?_).symm
    intro stage
    obtain ⟨r, hr, _⟩ := headPred_of_mem_stage stage
    rw [canonicalRules_nil] at hr
    cases hr
  · obtain ⟨⟨found, iterations⟩, evaluated, h⟩ := Option.bind_eq_some_iff.mp h
    cases h
    exact visible_materialise_evaluate (fun r hr => (List.mem_filter.mp hr).1) evaluated

/-- A loop that ended before its limit holds everything within reach. -/
theorem reach_of_evaluate (h : evaluateRules ctx derived rules = some (found, iterations))
    (early : iterations < maxIterations) :
    (ruleEngine ctx derived rules).reach =
      (ruleEngine ctx derived rules).stage (maxIterations - 1) := by
  have ends := mem_evaluate h
  refine Engine.reach_eq_of_closed ?_
  intro a ha b step
  exact (ends b).mp (evaluate_closed h early ((ends a).mpr ha) step)

/-- Nothing is within reach of rules without head predicates. -/
theorem reach_of_no_head (none : ∀ r ∈ rules, r.headPred = none) :
    (ruleEngine ctx derived rules).reach = ∅ := by
  refine Set.eq_empty_of_forall_notMem ?_
  intro b ⟨n, hn⟩
  obtain ⟨r, hr, pred⟩ := headPred_of_mem_stage hn
  rw [none r hr] at pred
  cases pred

/-- `run_seminaive_inner` below its limit. -/
theorem reach_runSeminaiveInner
    (h : runSeminaiveInner env session rules st = some (report, st'))
    (early : report.iterationCount < maxIterations) :
    st'.Visible q ↔ st.Visible q ∨ q ∈ (innerEngine env rules st).reach := by
  rw [visible_runSeminaiveInner h]
  unfold runSeminaiveInner at h
  dsimp only at h
  split at h
  · rename_i empty
    have closed : (innerEngine env rules st).reach = ∅ := by
      refine reach_of_no_head ?_
      intro r hr
      rw [Option.eq_none_iff_forall_ne_some]
      intro p pred
      have := mem_derivedPredIds.mpr ⟨r, hr, pred⟩
      rw [List.isEmpty_iff.mp empty] at this
      cases this
    have none := Set.subset_eq_empty (Engine.stage_subset_reach (maxIterations - 1)) closed
    rw [closed, none]
  · obtain ⟨⟨found, iterations⟩, evaluated, h⟩ := Option.bind_eq_some_iff.mp h
    cases h
    rw [innerEngine, reach_of_evaluate evaluated early]

/-- `run_inference_seminaive` below its limit. -/
theorem reach_runInferenceSeminaive
    (h : runInferenceSeminaive env session rules st = some (report, st'))
    (early : report.iterationCount < maxIterations) :
    st'.Visible q ↔ st.Visible q ∨ q ∈ (inferenceEngine env rules st).reach := by
  rw [visible_runInferenceSeminaive h]
  unfold runInferenceSeminaive at h
  split at h
  · rename_i empty
    have closed : (inferenceEngine env rules st).reach = ∅ := by
      refine reach_of_no_head ?_
      intro r hr
      rw [List.isEmpty_iff.mp empty, canonicalRules_nil] at hr
      cases hr
    have none := Set.subset_eq_empty (Engine.stage_subset_reach (maxIterations - 1)) closed
    rw [closed, none]
  · obtain ⟨⟨found, iterations⟩, evaluated, h⟩ := Option.bind_eq_some_iff.mp h
    cases h
    rw [inferenceEngine, reach_of_evaluate evaluated early]

end Drivers

end PgRipple.Datalog
