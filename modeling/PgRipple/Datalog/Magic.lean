import PgRipple.Datalog.Accepted
import PgRipple.Datalog.Demand

/-!
# Goal-directed inference

`run_infer_goal` takes a triple pattern. With `magic_sets` on and a bound predicate
it evaluates the rules that can contribute to that predicate, and restricts the
seeds of the goal predicate by the bound positions of the goal.

The restriction is done on the text of the seed statement, by appending
`AND s = … AND o = …` before `ON CONFLICT`. The text always contains `WHERE`,
because every table expression does. So without a `WHERE` clause of its own the
statement ends in `FROM … t0 AND s = …` or extends the last `ON` clause, and with
more than one table the column is ambiguous; PostgreSQL rejects both. What is
accepted is a single table with a constant, where the columns are those of the body
atom and not of the head, and the transitive closure of a self-recursive rule,
where they are those of the computed row.
-/

namespace PgRipple.Datalog

open Storage

/-- A goal: bound positions have a value. -/
structure GoalPattern where
  s : Option TermId
  p : Option TermId
  o : Option TermId
  deriving DecidableEq, Repr

namespace GoalPattern

/-- A position accepts a value. -/
def admits (bound : Option TermId) (x : TermId) : Bool := bound.all fun y => y = x

/-- The triple matches the goal. -/
def Matches (goal : GoalPattern) (q : Quad) : Prop :=
  admits goal.s q.s && admits goal.p q.p && admits goal.o q.o

instance (goal : GoalPattern) (q : Quad) : Decidable (goal.Matches q) :=
  inferInstanceAs (Decidable (_ = true))

/-- `extra_conditions`, on the columns of the only table. -/
def extraConditions (goal : GoalPattern) : List Cond :=
  (goal.s.map fun id => Cond.eq (.col 0 .s) (.const id)).toList ++
    (goal.o.map fun id => Cond.eq (.col 0 .o) (.const id)).toList

end GoalPattern

/-- `head_to_bodies`. -/
def headToBodies (rules : List Rule) (p : TermId) : List TermId :=
  ((rules.filter fun r => r.headPred = some p).flatMap Rule.bodyPreds).dedup

/-- The worklist loop of `find_goal_reachable_preds`. -/
def searchGoal (rules : List Rule) : (fuel : Nat) → List TermId → List TermId → List TermId
  | 0, _, reachable => reachable
  | _ + 1, [], reachable => reachable
  | fuel + 1, p :: worklist, reachable =>
    let new := (headToBodies rules p).filter fun b => b ∉ reachable
    searchGoal rules fuel (worklist ++ new) (reachable ++ new)

/-- `find_goal_reachable_preds`; each predicate enters the worklist once. -/
def findGoalReachablePreds (rules : List Rule) (goalPred : TermId) : List TermId :=
  searchGoal rules ((rules.flatMap Rule.bodyPreds).length + 2) [goalPred] [goalPred]

/-- The rules that can contribute to the goal. -/
def relevantRules (rules : List Rule) (goalPred : TermId) : List Rule :=
  rules.filter fun r => r.headPred.any (· ∈ findGoalReachablePreds rules goalPred)

section Reachable

variable {rules : List Rule} {p b : TermId} {r : Rule}

theorem mem_headToBodies :
    b ∈ headToBodies rules p ↔ ∃ r ∈ rules, r.headPred = some p ∧ b ∈ r.bodyPreds :=
  mem_buildDepGraph

theorem subset_searchGoal (fuel : Nat) (worklist reachable : List TermId) :
    reachable ⊆ searchGoal rules fuel worklist reachable := by
  induction fuel generalizing worklist reachable with
  | zero => exact List.Subset.refl reachable
  | succ fuel ih =>
    cases worklist with
    | nil => exact List.Subset.refl reachable
    | cons p worklist => exact List.Subset.trans (List.subset_append_left _ _) (ih _ _)

/-- The search ends with everything that the rules for its result read. -/
theorem closed_searchGoal {fuel : Nat} {worklist reachable : List TermId}
    (enough : worklist.length + Worklist.unseen (rules.flatMap Rule.bodyPreds) reachable ≤ fuel)
    (done : ∀ x ∈ reachable, x ∉ worklist → ∀ y ∈ headToBodies rules x, y ∈ reachable) :
    ∀ x ∈ searchGoal rules fuel worklist reachable, ∀ y ∈ headToBodies rules x,
      y ∈ searchGoal rules fuel worklist reachable := by
  induction fuel generalizing worklist reachable with
  | zero =>
    have empty : worklist = [] := List.length_eq_zero_iff.mp (by omega)
    subst empty
    exact fun x hx => done x hx List.not_mem_nil
  | succ fuel ih =>
    cases worklist with
    | nil => exact fun x hx => done x hx List.not_mem_nil
    | cons x worklist =>
      refine ih ?_ (Worklist.done_step (by simp) (by simp [or_comm]) done)
      have inside (y : TermId) (hy : y ∈ headToBodies rules x) :
          y ∈ rules.flatMap Rule.bodyPreds := by
        obtain ⟨r, hr, -, hy⟩ := mem_headToBodies.mp hy
        exact List.mem_flatMap.mpr ⟨r, hr, hy⟩
      have fewer := Worklist.length_add_unseen_le (U := rules.flatMap Rule.bodyPreds)
        ((List.nodup_dedup _).filter fun y => y ∉ reachable)
        (fun y hy => inside y (List.mem_of_mem_filter hy))
        (fun y hy => of_decide_eq_true (List.mem_filter.mp hy).2)
      rw [List.length_cons] at enough
      rw [List.length_append]
      unfold headToBodies
      omega

/-- What a rule for a reachable predicate reads is reachable. -/
theorem mem_findGoalReachablePreds_of_body {q : TermId} (hr : r ∈ rules)
    (head : r.headPred = some q) (reachable : q ∈ findGoalReachablePreds rules p)
    (body : b ∈ r.bodyPreds) : b ∈ findGoalReachablePreds rules p := by
  refine closed_searchGoal ?_ ?_ q reachable b (mem_headToBodies.mpr ⟨r, hr, head, body⟩)
  · have fewer : Worklist.unseen (rules.flatMap Rule.bodyPreds) [p] ≤
        (rules.flatMap Rule.bodyPreds).length :=
      (Finset.card_le_card Finset.sdiff_subset).trans (List.toFinset_card_le _)
    rw [List.length_singleton]
    omega
  · intro x hx fresh
    exact absurd hx fresh

end Reachable

/-- The statement reads one table only. -/
def Query.singleTable (q : Query) : Bool :=
  q.from_.length = 1 && q.where_.all fun
    | .antiJoin .. => false
    | _ => true

/-- The text surgery of `build_magic_filtered_seed_sql`; `none` if PostgreSQL rejects
the result. -/
def filterSeed (goal : GoalPattern) (stmt : Stmt) : Option Stmt :=
  let extra := goal.extraConditions
  if extra.isEmpty then some stmt
  else match stmt with
    | .select q =>
      if !q.where_.isEmpty && q.singleTable then
        some (.select { q with where_ := q.where_ ++ extra })
      else none
    | .recursive q => some (.recursive { q with where_ := q.where_ ++ extra })

/-- The seed statements of the magic path. -/
def magicSeedStmts (ctx : Context) (goal : GoalPattern) (relevant : List Rule) :
    Option (List (TermId × Stmt)) :=
  (seedStmts ctx relevant).mapM fun (p, stmt) =>
    if goal.p = some p then (filterSeed goal stmt).map fun stmt => (p, stmt) else some (p, stmt)

/-- `run_magic_seminaive`. -/
def runMagicSeminaive (env : Environment) (session : Session) (relevant : List Rule)
    (goal : GoalPattern) (st : Store) : Option (Report × Store) := do
  let ctx := env.context st
  let derived := derivedPredIds relevant
  let seeds ← magicSeedStmts ctx goal relevant
  let (found, iterations) ←
    evaluate ctx seeds (variantStmts ctx derived relevant) (maxIterations - 1)
  let (total, st) := materialise session derived found st
  return (⟨total, iterations⟩, st)

/-- `count_matching_goal`. -/
def countMatchingGoal (goal : GoalPattern) (st : Store) : Nat :=
  let rare := (st.rare.rows.filter fun r => goal.Matches r.quad).length
  match goal.p with
  | none => rare
  | some p =>
    if st.isDedicated p then
      ((st.tables p).htapView.filter fun r =>
        GoalPattern.admits goal.s r.key.s && GoalPattern.admits goal.o r.key.o).length + rare
    else rare

/-- `run_magic_inference`: the matching count, the report and the store. -/
def runMagicInference (env : Environment) (session : Session) (rules : List Rule)
    (goal : GoalPattern) (goalPred : TermId) (st : Store) : Option (Nat × Report × Store) :=
  if rules.isEmpty then some (0, ⟨0, 0⟩, st)
  else
    let relevant := relevantRules rules goalPred
    if relevant.isEmpty then some (countMatchingGoal goal st, ⟨0, 0⟩, st)
    else do
      let (report, st) ← runMagicSeminaive env session relevant goal st
      return (countMatchingGoal goal st, report, st)

/-- `run_infer_goal`. -/
def runInferGoal (env : Environment) (session : Session) (rules : List Rule) (goal : GoalPattern)
    (st : Store) : Option (Nat × Report × Store) :=
  let full := do
    let (report, st) ← runInferenceSeminaive env session rules st
    return (countMatchingGoal goal st, report, st)
  if env.settings.magicSets then
    match goal.p with
    | some p => runMagicInference env session rules goal p st
    | none => full
  else full

section Accepted

variable {ctx : Context}

theorem total_filterSeed {goal : GoalPattern} {stmt stmt' : Stmt}
    (total : stmt.Total ctx.toDatabase) (h : filterSeed goal stmt = some stmt') :
    stmt'.Total ctx.toDatabase := by
  simp only [filterSeed] at h
  split at h
  · cases h
    exact total
  · split at h
    · rename_i q
      split at h
      · cases h
        intro graph delta env joined
        refine total graph delta env ?_
        obtain ⟨rows, conds⟩ := Query.mem_envs.mp joined
        refine Query.mem_envs.mpr ⟨rows, ?_⟩
        intro c hc
        refine conds c ?_
        simp only [Query.conds, List.mem_append] at hc ⊢
        exact hc.imp_right .inl
      · cases h
    · cases h
      trivial

end Accepted

/-- The engine of the magic path. -/
def magicEngine (ctx : Context) (goal : GoalPattern) (relevant : List Rule) : Engine Quad :=
  engine ctx ((magicSeedStmts ctx goal relevant).getD [])
    (variantStmts ctx (derivedPredIds relevant) relevant)

/-- PostgreSQL accepts all statements of the magic path. -/
def MagicAccepted (ctx : Context) (goal : GoalPattern) (relevant : List Rule) : Prop :=
  ∃ seeds, magicSeedStmts ctx goal relevant = some seeds ∧
    (∀ s ∈ seeds, s.2.accepted = true) ∧
    ∀ s ∈ variantStmts ctx (derivedPredIds relevant) relevant, s.2.accepted = true

section Path

variable {ctx : Context} {goal : GoalPattern} {relevant rules : List Rule}
  {seeds : List (TermId × Stmt)}

theorem exists_seed_of_magic (h : magicSeedStmts ctx goal relevant = some seeds)
    {s : TermId × Stmt} (hs : s ∈ seeds) :
    ∃ stmt, (s.1, stmt) ∈ seedStmts ctx relevant ∧
      (stmt = s.2 ∨ filterSeed goal stmt = some s.2) := by
  obtain ⟨⟨p, stmt⟩, hstmt, filtered⟩ := (Fold.mem_of_mapM_eq_some h).mp hs
  dsimp only at filtered
  split at filtered
  · obtain ⟨stmt', hstmt', same⟩ := Option.map_eq_some_iff.mp filtered
    cases same
    exact ⟨stmt, hstmt, .inr hstmt'⟩
  · cases filtered
    exact ⟨stmt, hstmt, .inl rfl⟩

/-- Whatever the magic path finds has the head predicate of a relevant rule. -/
theorem headPred_of_mem_magic {n : Nat} {b : Quad}
    (h : b ∈ (magicEngine ctx goal relevant).stage n) : b.p ∈ derivedPredIds relevant := by
  have all : (magicEngine ctx goal relevant).stage n ⊆ {b | b.p ∈ derivedPredIds relevant} := by
    refine Engine.stage_subset_iff.mpr ⟨?_, ?_⟩
    · intro b ⟨stmt, hstmt, _⟩
      cases hseeds : magicSeedStmts ctx goal relevant with
      | none =>
        rw [hseeds] at hstmt
        cases hstmt
      | some seeds =>
        rw [hseeds, Option.getD_some] at hstmt
        obtain ⟨stmt', hstmt', _⟩ := exists_seed_of_magic hseeds hstmt
        obtain ⟨r, hr, compiled⟩ := mem_seedStmts.mp hstmt'
        obtain ⟨head, hh, hp, _⟩ := compileSingleRuleTo_eq_ok.mp compiled
        exact mem_derivedPredIds.mpr ⟨r, hr, by simp [Rule.headPred, hh, Atom.pred?, hp]⟩
    · intro k _ a _ _ b produced
      exact mem_derivedPredIds.mpr (mem_derived_of_step produced)
  exact all h

variable {env : Environment} {session : Session} {st st' : Store} {q : Quad} {report : Report}

/-- `run_magic_seminaive` adds what its engine finds. -/
theorem visible_runMagicSeminaive
    (h : runMagicSeminaive env session relevant goal st = some (report, st')) :
    st'.Visible q ↔ st.Visible q ∨
      q ∈ (magicEngine (env.context st) goal relevant).stage (maxIterations - 1) := by
  obtain ⟨seeds, hseeds, h⟩ := Option.bind_eq_some_iff.mp h
  obtain ⟨⟨found, iterations⟩, evaluated, h⟩ := Option.bind_eq_some_iff.mp h
  cases h
  have same : magicEngine (env.context st) goal relevant = engine (env.context st) seeds
      (variantStmts (env.context st) (derivedPredIds relevant) relevant) := by
    rw [magicEngine, hseeds]
    rfl
  change (materialise session (derivedPredIds relevant) found st).2.Visible q ↔ _
  rw [visible_materialise, mem_evaluate evaluated, ← same]
  exact or_congr_right (and_iff_left_of_imp headPred_of_mem_magic)

theorem relevantRules_nil {p : TermId} : relevantRules [] p = [] := rfl

/-- Nothing is found without relevant rules. -/
theorem magicEngine_nil {n : Nat} : (magicEngine ctx goal []).stage n = ∅ := by
  refine Set.eq_empty_of_forall_notMem ?_
  intro b hb
  have := headPred_of_mem_magic hb
  simp [derivedPredIds] at this

theorem visible_runMagicInference {p : TermId} {count : Nat}
    (h : runMagicInference env session rules goal p st = some (count, report, st')) :
    st'.Visible q ↔ st.Visible q ∨
      q ∈ (magicEngine (env.context st) goal (relevantRules rules p)).stage
        (maxIterations - 1) := by
  unfold runMagicInference at h
  split at h
  · rename_i empty
    cases h
    rw [List.isEmpty_iff.mp empty, relevantRules_nil, magicEngine_nil]
    simp
  · dsimp only at h
    split at h
    · rename_i empty
      cases h
      rw [List.isEmpty_iff.mp empty, magicEngine_nil]
      simp
    · obtain ⟨⟨report', st''⟩, ran, h⟩ := Option.bind_eq_some_iff.mp h
      cases h
      exact visible_runMagicSeminaive ran

/-- The magic path ends normally exactly if its statements are accepted. -/
theorem exists_runMagicInference_iff {p : TermId} (positive : ∀ r ∈ rules, r.Positive) :
    (∃ result, runMagicInference env session rules goal p st = some result) ↔
      MagicAccepted (env.context st) goal (relevantRules rules p) := by
  have trivially (none : relevantRules rules p = []) :
      MagicAccepted (env.context st) goal (relevantRules rules p) := by
    rw [none]
    exact ⟨[], rfl, fun _ hs => absurd hs List.not_mem_nil, fun _ hs => absurd hs List.not_mem_nil⟩
  unfold runMagicInference
  split
  · rename_i empty
    refine iff_of_true ⟨_, rfl⟩ (trivially ?_)
    rw [List.isEmpty_iff.mp empty]
    rfl
  · dsimp only
    split
    · rename_i empty
      exact iff_of_true ⟨_, rfl⟩ (trivially (List.isEmpty_iff.mp empty))
    · have ofRelevant (r : Rule) (hr : r ∈ relevantRules rules p) : r.Positive :=
        positive r (List.mem_filter.mp hr).1
      have variantsTotal : ∀ s ∈ variantStmts (env.context st)
          (derivedPredIds (relevantRules rules p)) (relevantRules rules p),
          s.2.Total (env.context st).toDatabase := by
        intro s hs
        obtain ⟨r, hr, variants, compiled, q, hq, same⟩ := mem_variantStmts.mp hs
        obtain ⟨head, _, _, i, _, one⟩ := (mem_compileRuleDeltaVariantsTo compiled).mp hq
        rw [same]
        exact total_variant (ofRelevant r hr).isPositive (ofRelevant r hr).constPreds one
      have seedsTotal (seeds : List (TermId × Stmt))
          (hseeds : magicSeedStmts (env.context st) goal (relevantRules rules p) = some seeds) :
          ∀ s ∈ seeds, s.2.Total (env.context st).toDatabase := by
        intro s hs
        obtain ⟨stmt, hstmt, same⟩ := exists_seed_of_magic hseeds hs
        obtain ⟨r, hr, compiled⟩ := mem_seedStmts.mp hstmt
        have total := total_seed (ofRelevant r hr).isPositive (ofRelevant r hr).constPreds compiled
        cases same with
        | inl same => exact same ▸ total
        | inr filtered => exact total_filterSeed total filtered
      constructor
      · intro ⟨result, ran⟩
        obtain ⟨_, ran, _⟩ := Option.bind_eq_some_iff.mp ran
        obtain ⟨seeds, hseeds, ran⟩ := Option.bind_eq_some_iff.mp ran
        obtain ⟨_, evaluated, _⟩ := Option.bind_eq_some_iff.mp ran
        refine ⟨seeds, hseeds, ?_⟩
        refine (isSome_evaluate_iff (seedsTotal seeds hseeds) variantsTotal ?_).mp
          (Option.isSome_iff_exists.mpr ⟨_, evaluated⟩)
        decide
      · intro ⟨seeds, hseeds, accepted⟩
        have ends : (evaluate (env.context st) seeds (variantStmts (env.context st)
            (derivedPredIds (relevantRules rules p)) (relevantRules rules p))
            (maxIterations - 1)).isSome = true :=
          (isSome_evaluate_iff (seedsTotal seeds hseeds) variantsTotal (by decide)).mpr accepted
        obtain ⟨⟨found, iterations⟩, evaluated⟩ := Option.isSome_iff_exists.mp ends
        simp [runMagicSeminaive, hseeds, evaluated]

end Path

section Unfiltered

variable {ctx : Context} {goal : GoalPattern} {rules relevant : List Rule} {p : TermId} {r : Rule}
  {stmt stmt' : Stmt} {delta : List Quad} {k : Key} {seeds : List (TermId × Stmt)}

/-- The columns that the filter tests are those that the head selects. -/
def Rule.Exposes (r : Rule) (goal : GoalPattern) : Prop :=
  ∀ h, r.head = some h → ∀ a ∈ r.positiveAtoms,
    (goal.s ≠ none → ∃ v, h.s = .var v ∧ a.s = .var v) ∧
      (goal.o ≠ none → ∃ v, h.o = .var v ∧ a.o = .var v ∧ a.s ≠ .var v)

/-- The filter drops no row that is needed: the goal has none, or no rule reads the goal
predicate, and the rules for it expose the columns of the filter. -/
def FilterHarmless (goal : GoalPattern) (p : TermId) (relevant : List Rule) : Prop :=
  (goal.s = none ∧ goal.o = none) ∨
    ∀ r ∈ relevant, p ∉ r.bodyPreds ∧ (r.headPred = some p → r.Exposes goal)

/-- Neither `owl:sameAs` nor subsumption changes the rules from which the goal predicate can be
reached. -/
def KeepsReachable (ctx : Context) (rules : List Rule) (p : TermId) : Prop :=
  ∀ r ∈ canonicalRules ctx rules ++ rules,
    r.headPred.any (· ∈ findGoalReachablePreds rules p) = true →
    r ∈ rules ∧ r ∈ activeRules (canonicalRules ctx rules)

instance : Decidable (KeepsReachable ctx rules p) :=
  inferInstanceAs (Decidable (∀ r ∈ _, _))

theorem colRef_bind_nil {v w : String} {e : Expr} :
    (VarMap.bind [] v e).colRef w = if w = v then some e else none := by
  rw [VarMap.colRef_bind]
  simp [VarMap.colRef]

theorem colRef_bindAtom_s {a : Atom} {v : String} (h : a.s = .var v) :
    (VarMap.bindAtom [] 0 a).colRef v = some (.col 0 .s) := by
  refine VarMap.colRef_bindTerm_eq (VarMap.colRef_bindTerm_eq ?_)
  rw [h]
  exact colRef_bind_nil.trans (if_pos rfl)

theorem colRef_bindAtom_o {a : Atom} {v : String} (h : a.o = .var v) (other : a.s ≠ .var v) :
    (VarMap.bindAtom [] 0 a).colRef v = some (.col 0 .o) := by
  have free : (VarMap.bindTerm [] a.s (.col 0 .s)).colRef v = none := by
    cases term : a.s with
    | var w =>
      refine colRef_bind_nil.trans (if_neg ?_)
      rintro rfl
      exact other term
    | _ => rfl
  refine VarMap.colRef_bindTerm_eq ?_
  rw [h]
  exact VarMap.colRef_bind.trans (if_pos ⟨rfl, free⟩)

/-- The rows of a recursive statement are computed before they are filtered. -/
theorem cteRows_where {db : Database} {q : RecQuery} {conds : List Cond} :
    RecQuery.cteRows db { q with where_ := conds } = q.cteRows db := by
  have same (fuel : Nat) (path : List (Int × Int × Int)) (k : Key) :
      RecQuery.expand db { q with where_ := conds } fuel path k = q.expand db fuel path k := by
    induction fuel generalizing path k with
    | zero => rfl
    | succ fuel ih =>
      simp only [RecQuery.expand, ih]
      rfl
  simp only [RecQuery.cteRows, same]
  rfl

theorem yields_of_filterSeed (filtered : filterSeed goal stmt = some stmt')
    (yields : stmt'.Yields ctx.toDatabase delta k) : stmt.Yields ctx.toDatabase delta k := by
  simp only [filterSeed] at filtered
  split at filtered
  · cases filtered
    exact yields
  · split at filtered
    · rename_i q
      split at filtered
      · cases filtered
        obtain ⟨env, joined, selected⟩ := yields
        obtain ⟨rows, conds⟩ := Query.mem_envs.mp joined
        refine ⟨env, Query.mem_envs.mpr ⟨rows, fun c hc => conds c ?_⟩, selected⟩
        simp only [Query.conds, List.mem_append] at hc ⊢
        exact hc.imp_right .inl
      · cases filtered
    · rename_i q
      cases filtered
      obtain ⟨row, mem, same⟩ := List.mem_map.mp yields
      obtain ⟨mem, holds⟩ := List.mem_filter.mp mem
      rw [cteRows_where] at mem
      refine List.mem_map.mpr ⟨row, List.mem_filter.mpr ⟨mem, ?_⟩, same⟩
      rw [List.all_append, Bool.and_eq_true] at holds
      exact holds.1

/-- The conditions of the goal hold of a row with its values in the tested columns. -/
theorem holds_extraConditions {env : List Key} (isMatch : goal.Matches (k.quad p))
    (s : goal.s ≠ none → (Expr.col 0 .s).eval env = some k.s)
    (o : goal.o ≠ none → (Expr.col 0 .o).eval env = some k.o) :
    ∀ c ∈ goal.extraConditions, ctx.holds env c = true := by
  intro c hc
  simp only [GoalPattern.Matches, GoalPattern.admits, Bool.and_eq_true] at isMatch
  obtain ⟨⟨subject, -⟩, object⟩ := isMatch
  simp only [GoalPattern.extraConditions, List.mem_append, Option.mem_toList,
    Option.map_eq_some_iff] at hc
  obtain ⟨id, bound, rfl⟩ | ⟨id, bound, rfl⟩ := hc
  · rw [bound] at subject s
    have value : k.s = id := (of_decide_eq_true subject).symm
    exact holds_eq (s (by simp)) (by rw [value]; rfl)
  · rw [bound] at object o
    have value : k.o = id := (of_decide_eq_true object).symm
    exact holds_eq (o (by simp)) (by rw [value]; rfl)

/-- It keeps the rows of the goal if its rule exposes the tested columns. -/
theorem yields_filterSeed (positive : r.Positive) (unread : p ∉ r.bodyPreds)
    (exposes : r.Exposes goal) (compiled : compileSingleRuleTo ctx r = .ok (p, stmt))
    (filtered : filterSeed goal stmt = some stmt') (yields : stmt.Yields ctx.toDatabase delta k)
    (isMatch : goal.Matches (k.quad p)) : stmt'.Yields ctx.toDatabase delta k := by
  obtain ⟨head, hh, -, ⟨recursive, _⟩ | ⟨-, q, hq, rfl⟩⟩ := compileSingleRuleTo_eq_ok.mp compiled
  · obtain ⟨a, ha, pred⟩ := List.any_eq_true.mp recursive
    exact absurd
      (List.mem_filterMap.mpr ⟨a, ha, by simp [Atom.pred?, of_decide_eq_true pred]⟩) unread
  simp only [filterSeed] at filtered
  split at filtered
  · cases filtered
    exact yields
  split at filtered
  · rename_i accepted
    cases filtered
    obtain ⟨env, joined, selected⟩ := yields
    obtain ⟨rows, conds⟩ := Query.mem_envs.mp joined
    obtain ⟨plan, hplan, finished⟩ := Fold.bind_eq_ok.mp hq
    rw [seedPlan_eq_addAtoms positive.isPositive positive.constPreds] at hplan
    cases hplan
    obtain ⟨s, o, hs, ho, rfl⟩ := finish_eq_ok.mp finished
    -- a single table means a single atom
    have single : (seedAtoms ctx r).length = 1 := by
      have tables :
          (Plan.empty.addAtoms ctx ((seedAtoms ctx r).map storedItem)).nextAlias = 1 := by
        simp only [Query.singleTable, Bool.and_eq_true, decide_eq_true_eq] at accepted
        exact accepted.2.1
      have count := @nextAlias_addAtoms ctx .empty ((seedAtoms ctx r).map storedItem)
      rw [List.length_map, show Plan.nextAlias .empty = 0 from rfl, Nat.zero_add] at count
      exact count.symm.trans tables
    obtain ⟨a, only⟩ := List.length_eq_one_iff.mp single
    have ha : a ∈ r.positiveAtoms := mem_seedAtoms.mp (only ▸ List.mem_singleton_self a)
    obtain ⟨exposesS, exposesO⟩ := exposes head hh a ha
    have names : (Plan.empty.addAtoms ctx ((seedAtoms ctx r).map storedItem)).varMap =
        VarMap.bindAtom [] 0 a := by
      rw [only]
      exact @varMap_addAtom ctx .empty (storedItem a).1 a
    rw [names] at hs ho
    have column : s.eval env = some k.s ∧ o.eval env = some k.o := by
      obtain ⟨x, hx, rest⟩ := Option.bind_eq_some_iff.mp selected
      obtain ⟨y, hy, rest⟩ := Option.bind_eq_some_iff.mp rest
      obtain ⟨g, -, same⟩ := Option.bind_eq_some_iff.mp rest
      cases same
      exact ⟨hx, hy⟩
    refine ⟨env, Query.mem_envs.mpr ⟨rows, fun c hc => ?_⟩, selected⟩
    simp only [Query.conds, List.mem_append] at hc
    obtain hc | hc | hc := hc
    · exact conds c (List.mem_append.mpr (.inl hc))
    · exact conds c (List.mem_append.mpr (.inr hc))
    · refine holds_extraConditions isMatch ?_ ?_ c hc
      · intro bound
        obtain ⟨v, headVar, atomVar⟩ := exposesS bound
        rw [headVar, headColumn, colRef_bindAtom_s atomVar] at hs
        cases hs
        exact column.1
      · intro bound
        obtain ⟨v, headVar, atomVar, other⟩ := exposesO bound
        rw [headVar, headColumn, colRef_bindAtom_o atomVar other] at ho
        cases ho
        exact column.2
  · cases filtered

theorem mem_relevantRules :
    r ∈ relevantRules rules p ↔
      r ∈ rules ∧ ∃ q, r.headPred = some q ∧ q ∈ findGoalReachablePreds rules p := by
  simp [relevantRules, Option.any_eq_true]

namespace KeepsReachable

variable (kept : KeepsReachable ctx rules p)
include kept

theorem mem_activeRules (hr : r ∈ relevantRules rules p) :
    r ∈ activeRules (canonicalRules ctx rules) :=
  (kept r (List.mem_append_right _ (List.mem_filter.mp hr).1) (List.mem_filter.mp hr).2).2

theorem mem_relevantRules {q : TermId} (hr : r ∈ canonicalRules ctx rules)
    (head : r.headPred = some q) (reachable : q ∈ findGoalReachablePreds rules p) :
    r ∈ relevantRules rules p := by
  refine Datalog.mem_relevantRules.mpr ⟨?_, q, head, reachable⟩
  exact (kept r (List.mem_append_left _ hr) (by simp [head, reachable])).1

end KeepsReachable

theorem seed_subset_of_magic (kept : KeepsReachable ctx rules p)
    (hseeds : magicSeedStmts ctx goal (relevantRules rules p) = some seeds) :
    {b | Produces ctx [] seeds b} ⊆
      {b | Produces ctx [] (seedStmts ctx (activeRules (canonicalRules ctx rules))) b} := by
  intro b ⟨stmt, hstmt, yields⟩
  obtain ⟨stmt', hstmt', same⟩ := exists_seed_of_magic hseeds hstmt
  obtain ⟨r, hr, compiled⟩ := mem_seedStmts.mp hstmt'
  refine ⟨stmt', mem_seedStmts.mpr ⟨r, kept.mem_activeRules hr, compiled⟩, ?_⟩
  cases same with
  | inl same => exact same ▸ yields
  | inr filtered => exact yields_of_filterSeed filtered yields

/-- A row of a seed that matches the goal, if it is one of the goal predicate, is kept. -/
theorem seed_magic (positive : ∀ r ∈ rules, r.Positive) (kept : KeepsReachable ctx rules p)
    (bound : goal.p = some p) (harmless : FilterHarmless goal p (relevantRules rules p))
    (hseeds : magicSeedStmts ctx goal (relevantRules rules p) = some seeds) {b : Quad}
    (seed : Produces ctx [] (seedStmts ctx (activeRules (canonicalRules ctx rules))) b)
    (reachable : b.p ∈ findGoalReachablePreds rules p) (isMatch : b.p = p → goal.Matches b) :
    Produces ctx [] seeds b := by
  obtain ⟨stmt, hstmt, yields⟩ := seed
  obtain ⟨r, hr, compiled⟩ := mem_seedStmts.mp hstmt
  obtain ⟨head, hh, pred, -⟩ := compileSingleRuleTo_eq_ok.mp compiled
  have headPred : r.headPred = some b.p := by simp [Rule.headPred, hh, Atom.pred?, pred]
  have relevant : r ∈ relevantRules rules p :=
    kept.mem_relevantRules (List.mem_of_mem_filter hr) headPred reachable
  have mem : (b.p, stmt) ∈ seedStmts ctx (relevantRules rules p) :=
    mem_seedStmts.mpr ⟨r, relevant, compiled⟩
  by_cases goalPred : goal.p = some b.p
  · have here : b.p = p := Option.some.inj (goalPred.symm.trans bound)
    obtain ⟨_, defined⟩ := Fold.exists_of_mapM_eq_some hseeds mem
    simp only [goalPred, if_true] at defined
    obtain ⟨stmt', filtered, rfl⟩ := Option.map_eq_some_iff.mp defined
    refine ⟨stmt', (Fold.mem_of_mapM_eq_some hseeds).mpr ⟨_, mem, ?_⟩, ?_⟩
    · simp [goalPred, filtered]
    · cases harmless with
      | inl free =>
        have same : stmt = stmt' := by
          simpa [filterSeed, GoalPattern.extraConditions, free.1, free.2] using filtered
        exact same ▸ yields
      | inr exposed =>
        obtain ⟨unread, exposes⟩ := exposed r relevant
        refine yields_filterSeed (positive r (mem_relevantRules.mp relevant).1) (here ▸ unread)
          (exposes (here ▸ headPred)) compiled filtered yields ?_
        rw [Quad.key_quad]
        exact isMatch here
  · exact ⟨stmt, (Fold.mem_of_mapM_eq_some hseeds).mpr ⟨_, mem, by simp [goalPred]⟩, yields⟩

/-- Chains of rows of all rules that end in a triple of the goal are chains of the magic
path, and the other way round. -/
theorem mem_magicEngine_iff {env : Environment} {st : Store} {n : Nat} {b : Quad}
    (positive : ∀ r ∈ rules, r.Positive)
    (accepted : MagicAccepted (env.context st) goal (relevantRules rules p))
    (kept : KeepsReachable (env.context st) rules p) (bound : goal.p = some p)
    (harmless : FilterHarmless goal p (relevantRules rules p)) (isMatch : goal.Matches b) :
    b ∈ (magicEngine (env.context st) goal (relevantRules rules p)).stage n ↔
      b ∈ (inferenceEngine env rules st).stage n := by
  obtain ⟨seeds, hseeds, -, -⟩ := accepted
  have seedsEq : (magicEngine (env.context st) goal (relevantRules rules p)).seed =
      {b | Produces (env.context st) [] seeds b} := by
    rw [magicEngine, hseeds]
    rfl
  constructor
  · refine fun hb => Engine.stage_subset_stage ?_ ?_ n hb
    · rw [seedsEq]
      exact seed_subset_of_magic kept hseeds
    · intro a b step
      obtain ⟨r, hr, -, -, single⟩ := exists_rule_of_step step
      refine step_of_rule (kept.mem_activeRules hr) (step_mono ?_ single)
      intro q _ hq
      obtain ⟨r', hr', head⟩ := mem_derivedPredIds.mp hq
      exact mem_derivedPredIds.mpr ⟨r', List.mem_of_mem_filter (kept.mem_activeRules hr'), head⟩
  · intro hb
    have here : b.p = p := by
      have goalPred : GoalPattern.admits goal.p b.p = true := by
        simp only [GoalPattern.Matches, Bool.and_eq_true] at isMatch
        exact isMatch.1.2
      rw [bound] at goalPred
      exact (of_decide_eq_true goalPred).symm
    refine Engine.stage_inter_subset_stage (G := {b : Quad | b.p ∈ findGoalReachablePreds rules p ∧
      (b.p = p → goal.Matches b)}) ?_ ?_ n
        ⟨hb, here ▸ subset_searchGoal _ _ _ (List.mem_singleton_self _), fun _ => isMatch⟩
    · intro b ⟨seed, reachable, isMatch⟩
      rw [seedsEq]
      exact seed_magic positive kept bound harmless hseeds seed reachable isMatch
    · intro a b step ⟨reachable, isMatch⟩
      obtain ⟨r, hr, head, body, single⟩ := exists_rule_of_step step
      have relevant : r ∈ relevantRules rules p :=
        kept.mem_relevantRules (List.mem_of_mem_filter hr) head reachable
      have below (q : TermId) (hq : q ∈ r.bodyPreds) : q ∈ findGoalReachablePreds rules p :=
        mem_findGoalReachablePreds_of_body (mem_relevantRules.mp relevant).1 head reachable hq
      refine ⟨⟨below a.p body, ?_⟩, step_of_rule relevant (step_mono ?_ single)⟩
      · intro same
        cases harmless with
        | inl free => simp [GoalPattern.Matches, GoalPattern.admits, free.1, free.2, bound, same]
        | inr exposed => exact absurd (same ▸ body) (exposed r relevant).1
      · intro q hq derived
        obtain ⟨r', hr', head'⟩ := mem_derivedPredIds.mp derived
        exact mem_derivedPredIds.mpr
          ⟨r', kept.mem_relevantRules hr' head' (below q hq), head'⟩

end Unfiltered

/-- Both stores show the same triples of the goal. -/
def GoalAgrees (goal : GoalPattern) (st st' : Store) : Prop :=
  ∀ q, goal.Matches q → (st.Visible q ↔ st'.Visible q)

/-- The triples of the goal that `E` reaches by a chain with a row that `E'` lacks are
in `X`. Chains have at most `n` rows after the first. -/
def Recovered (E E' : Engine Quad) (goal : GoalPattern) (n : Nat) (X : Set Quad) : Prop :=
  ∀ k ≤ n, ∀ a, Engine.Leaves E E' k a → ∀ b ∈ (E.from_ a).stage (n - k), goal.Matches b → b ∈ X

theorem goalAgrees_iff {E E' : Engine Quad} {goal : GoalPattern} {n : Nat} {st st' st'' : Store}
    (left : ∀ q, st'.Visible q ↔ st.Visible q ∨ q ∈ E.stage n)
    (right : ∀ q, st''.Visible q ↔ st.Visible q ∨ q ∈ E'.stage n) :
    GoalAgrees goal st' st'' ↔
      Recovered E' E goal n ({q | st.Visible q} ∪ E.stage n) ∧
        Recovered E E' goal n ({q | st.Visible q} ∪ E'.stage n) := by
  have half {E E' : Engine Quad} :
      E'.stage n ∩ {q | goal.Matches q} ⊆ {q | st.Visible q} ∪ E.stage n ↔
        Recovered E' E goal n ({q | st.Visible q} ∪ E.stage n) :=
    Engine.stage_inter_subset_iff fun q hq => .inr hq.1
  rw [← half, ← half]
  unfold GoalAgrees
  simp only [left, right]
  constructor
  · intro agrees
    constructor
    · intro q hq
      exact (agrees q hq.2).mpr (.inr hq.1)
    · intro q hq
      exact (agrees q hq.2).mp (.inr hq.1)
  · intro ⟨there, back⟩ q isMatch
    constructor
    · intro h
      exact h.elim .inl fun found => back ⟨found, isMatch⟩
    · intro h
      exact h.elim .inl fun found => there ⟨found, isMatch⟩

/-- `?x <11> ?y` as a goal. -/
def freeGoal : GoalPattern := ⟨none, some 11, none⟩

/-- `<201> <11> ?x :- ?x <21> <300> .` -/
def reversedRule : Rule :=
  ⟨some ⟨.const 201, .const 11, .var "x", .defaultGraph⟩,
    [.positive ⟨.var "x", .const 21, .const 300, .defaultGraph⟩],
    "<201> <11> ?x :- ?x <21> <300> ."⟩

end PgRipple.Datalog
