import PgRipple.Lib.Fold
import PgRipple.Lib.OuterJoin
import PgRipple.Datalog.Compiler

/-!
# The two forms of negation

A negated atom compiles to `NOT EXISTS`, or, when its predicate is estimated to be large,
to a `LEFT JOIN` whose columns must be `NULL`. The two condition builders of the source
look at the same positions: subject and object, never the graph. Here the left joins are
executed as such, after the inner joins and before `WHERE`; `Cond.antiJoin` says the same
by a condition.
-/

namespace PgRipple.Datalog

open Storage OuterJoin

/-- `column = …` for a constant or a bound variable; an unbound variable or a wildcard
imposes nothing. -/
def columnCond (vm : VarMap) (c : Col) : Term → List (Col × Expr)
  | .var v =>
    match vm.colRef v with
    | some e => [(c, e)]
    | none => []
  | .const id => [(c, .const id)]
  | _ => []

/-- `build_antijoin_on_cond`, as equations of the columns of `aj`; no equation is `TRUE`. -/
def buildAntijoinOnCond (a : Atom) (vm : VarMap) : List (Col × Expr) :=
  columnCond vm .s a.s ++ columnCond vm .o a.o

/-- `build_not_exists_conds`, as equations of the columns of the subquery's table; no
equation is `TRUE`. -/
def buildNotExistsConds (a : Atom) (vm : VarMap) : List (Col × Expr) :=
  columnCond vm .s a.s ++ columnCond vm .o a.o

/-- A row of the negated relation fulfils the equations. -/
def fulfils (conds : List (Col × Expr)) (env : List Key) (k : Key) : Bool :=
  conds.all fun cond => cond.2.eval env = some (cond.1.of k)

/-- The rows that `LEFT JOIN relation aj ON …` with `aj.s IS NULL` accepts. -/
def antiJoinAccepts (vm : VarMap) (a : Atom) (relation : List Key) (rows : List (List Key)) :
    List (List Key) :=
  ((leftJoin (fulfils (buildAntijoinOnCond a vm)) rows relation).filter
    fun row => row.2.isNone).map Prod.fst

/-- The rows that `NOT EXISTS (SELECT 1 FROM relation WHERE …)` accepts. -/
def notExistsAccepts (vm : VarMap) (a : Atom) (relation : List Key) (rows : List (List Key)) :
    List (List Key) :=
  rows.filter fun env => !relation.any (fulfils (buildNotExistsConds a vm) env)

theorem antiJoinAccepts_eq (vm : VarMap) (a : Atom) (relation : List Key)
    (rows : List (List Key)) :
    antiJoinAccepts vm a relation rows = notExistsAccepts vm a relation rows :=
  leftJoin_isNone _ rows relation

/-- The equations behind the two expressions of a negated atom. -/
def equations (s o : Option Expr) : List (Col × Expr) :=
  (s.map fun e => (Col.s, e)).toList ++ (o.map fun e => (Col.o, e)).toList

theorem existsRow_eq (db : Database) (env : List Key) (p : TermId) (s o : Option Expr) :
    db.existsRow env p s o = (db.stored p).any (fulfils (equations s o) env) := by
  have column (k : Key) (c : Col) (e : Option Expr) :
      (e.all fun e => e.eval env = some (c.of k)) =
        (e.map fun e => (c, e)).toList.all fun cond => cond.2.eval env = some (cond.1.of k) := by
    cases e with
    | none => rfl
    | some e => exact (Bool.and_true _).symm
  unfold Database.existsRow
  congr 1
  funext k
  rw [fulfils, equations, List.all_append]
  exact congrArg₂ and (column k .s s) (column k .o o)

namespace Query

/-- The left joins of a statement, in order. -/
def antiJoins (db : Database) (q : Query) : List ((List Key → Key → Bool) × List Key) :=
  q.where_.filterMap fun
    | .antiJoin p s o => some (fulfils (equations s o), db.stored p)
    | _ => none

/-- A condition of `WHERE` other than an `aj.s IS NULL`. -/
def plainCond : Cond → Bool
  | .antiJoin .. => false
  | _ => true

/-- The rows of the `FROM` clause: the inner joins, then the left joins. -/
def fromRows (db : Database) (delta : List Quad) (q : Query) :
    List (List Key × List (Option Key)) :=
  let inner := (q.from_.map fun item => db.rows delta item.source).sections.filter
    fun env => (q.from_.flatMap FromItem.on).all (db.holds env)
  leftJoins (inner.map fun env => (env, [])) (q.antiJoins db)

/-- The rows that pass `WHERE`. -/
def whereRows (db : Database) (delta : List Quad) (q : Query) : List (List Key) :=
  ((q.fromRows db delta).filter fun row =>
    unmatched row && (q.where_.filter plainCond).all (db.holds row.1)).map Prod.fst

/-- Execute the statement with its left joins. -/
def execJoined (db : Database) (delta : List Quad) (q : Query) : Option (List Key) :=
  if q.wellFormed && (q.whereRows db delta).all (fun env => (q.select env).isSome) then
    some ((q.whereRows db delta).filterMap q.select)
  else none

/-- The conditions of `WHERE` are those of the left joins and the others. -/
theorem all_where (db : Database) (env : List Key) (where_ : List Cond) :
    where_.all (db.holds env) =
      ((where_.filter plainCond).all (db.holds env) &&
        (where_.filterMap fun
          | .antiJoin p s o => some (fulfils (equations s o), db.stored p)
          | _ => none).all fun join => !join.2.any (join.1 env)) := by
  induction where_ with
  | nil => rfl
  | cons c where_ ih =>
    cases c with
    | antiJoin p s o =>
      simp only [List.all_cons, List.filter_cons, List.filterMap_cons, plainCond, ih,
        Database.holds, existsRow_eq]
      exact Bool.and_left_comm _ _ _
    | compare l op r => simp [plainCond, ih, Bool.and_assoc]
    | builtin b => simp [plainCond, ih, Bool.and_assoc]
    | notExists p s o => simp [plainCond, ih, Bool.and_assoc]
    | sequential f args => simp [plainCond, ih, Bool.and_assoc]

theorem whereRows_eq (db : Database) (delta : List Quad) (q : Query) :
    q.whereRows db delta = q.envs db delta := by
  have start (inner : List (List Key)) :
      ((inner.map fun env => (env, ([] : List (Option Key)))).filter unmatched).map Prod.fst =
        inner := by
    rw [List.filter_map, List.map_map]
    simp [Function.comp_def, unmatched]
  have both (rows : List (List Key × List (Option Key))) (keep : List Key → Bool) :
      (rows.filter fun row => unmatched row && keep row.1).map Prod.fst =
        ((rows.filter unmatched).map Prod.fst).filter keep := by
    rw [List.filter_map, List.filter_filter]
    congr 1
    exact List.filter_congr fun row _ => Bool.and_comm _ _
  unfold whereRows fromRows envs
  rw [both _ fun env => (q.where_.filter plainCond).all (db.holds env), map_filter_leftJoins, start,
    List.filter_filter, List.filter_filter]
  refine List.filter_congr fun env _ => ?_
  rw [conds, List.all_append, all_where db env q.where_, antiJoins]
  simp only [Bool.and_comm, Bool.and_left_comm]

/-- The condition `Cond.antiJoin` is the left join of the statement. -/
theorem execJoined_eq (db : Database) (delta : List Quad) (q : Query) :
    q.execJoined db delta = q.exec db delta := by
  rw [execJoined, exec, whereRows_eq]

end Query

/-- Every anti-join as a `NOT EXISTS`. -/
def Cond.unjoin : Cond → Cond
  | .antiJoin p s o => .notExists p s o
  | c => c

theorem holds_unjoin (db : Database) (env : List Key) (c : Cond) :
    db.holds env c.unjoin = db.holds env c := by
  cases c <;> rfl

def Plan.unjoin (plan : Plan) : Plan := { plan with where_ := plan.where_.map Cond.unjoin }

def Query.unjoin (q : Query) : Query := { q with where_ := q.where_.map Cond.unjoin }

theorem exec_unjoin (db : Database) (delta : List Quad) (q : Query) :
    q.unjoin.exec db delta = q.exec db delta := by
  have same : q.unjoin.envs db delta = q.envs db delta := by
    unfold Query.envs
    refine List.filter_congr fun env _ => ?_
    have where_ : (q.where_.map Cond.unjoin).all (db.holds env) = q.where_.all (db.holds env) := by
      rw [List.all_map]
      congr 1
      funext c
      exact holds_unjoin db env c
    simp only [Query.conds, Query.unjoin, List.all_append, where_]
  unfold Query.exec
  rw [same]
  rfl

/-- The context with another anti-join threshold and other estimates. -/
def Context.withEstimates (ctx : Context) (threshold : Int) (tripleCount : TermId → Int) :
    Context :=
  { ctx with
    settings := { ctx.settings with datalogAntijoinThreshold := threshold }
    tripleCount := tripleCount }

section Estimates

variable {ctx : Context} {rule : Rule} (count : TermId → Int)

/-- Step 4 for one literal, up to the form. -/
theorem seedNegated_unjoin (ctx : Context) (plan : Plan) (l : BodyLiteral) :
    (seedNegated ctx plan l).map Plan.unjoin =
      seedNegated (ctx.withEstimates 0 count) plan.unjoin l := by
  cases l with
  | negated a =>
    cases hp : a.p with
    | const p =>
      simp only [seedNegated, hp]
      split <;> simp [Except.map, Plan.unjoin, Plan.addCond, Cond.unjoin, Context.withEstimates]
    | _ => simp [seedNegated, hp, Except.map]
  | _ => rfl

theorem foldlM_seedNegated_unjoin (ctx : Context) (plan : Plan) (body : List BodyLiteral) :
    (body.foldlM (seedNegated ctx) plan).map Plan.unjoin =
      body.foldlM (seedNegated (ctx.withEstimates 0 count)) plan.unjoin := by
  induction body generalizing plan with
  | nil => rfl
  | cons l body ih =>
    have first := seedNegated_unjoin count ctx plan l
    rw [List.foldlM_cons, List.foldlM_cons, ← first]
    cases seedNegated ctx plan l with
    | error e => rfl
    | ok plan' => exact ih plan'

theorem compileGuardSql_unjoin {vm : VarMap} {l : BodyLiteral} {c : Cond}
    (h : compileGuardSql vm l = some c) : c.unjoin = c := by
  cases l with
  | compare x op y =>
    cases h
    rfl
  | stringBuiltin b =>
    cases h
    rfl
  | _ => cases h

theorem atomConds_unjoin {t : Nat} {a : Atom} {c : Cond} (h : c ∈ atomConds ctx t a) :
    c.unjoin = c := by
  have constant {col : Col} {u : Term} (h : c ∈ constCond t col u) : c.unjoin = c := by
    cases u with
    | const id =>
      rw [List.mem_singleton.mp h]
      rfl
    | _ => exact absurd h List.not_mem_nil
  have scope (h : c ∈ scopeCond ctx t) : c.unjoin = c := by
    unfold scopeCond at h
    split at h
    · rw [List.mem_singleton.mp h]
      rfl
    · exact absurd h List.not_mem_nil
  rw [atomConds, List.mem_append, List.mem_append] at h
  obtain (h | h) | h := h
  · exact constant h
  · exact constant h
  · split at h
    · exact absurd h List.not_mem_nil
    · rw [List.mem_singleton.mp h]
      rfl
    · exact scope h

theorem unjoin_seedAtoms {filters : List TemporalFilter} {atoms : List Atom}
    {guards waiting : List BodyLiteral} {plan : Plan}
    (h : atoms.foldlM (seedAtom ctx filters) (Plan.empty, guards) = .ok (plan, waiting)) :
    plan.unjoin = plan := by
  have conds : ∀ c ∈ plan.where_, c.unjoin = c := by
    refine Fold.foldlM_prefix (P := fun _ state => ∀ c ∈ state.1.where_, c.unjoin = c) ?_ ?_ h
    · exact fun c hc => absurd hc List.not_mem_nil
    · rintro _ a ⟨plan, guards⟩ ⟨plan', guards'⟩ old step c hc
      cases hp : a.p with
      | const p =>
        simp only [seedAtom, hp, Except.ok.injEq, Prod.mk.injEq] at step
        obtain ⟨rfl, -⟩ := step
        simp only [Plan.addAtom] at hc
        split at hc
        · obtain (hc | hc) | hc := by simpa only [List.mem_append] using hc
          · exact old c hc
          · exact atomConds_unjoin hc
          · obtain ⟨l, _, hl⟩ := List.mem_filterMap.mp hc
            exact compileGuardSql_unjoin hl
        · obtain hc | hc := List.mem_append.mp hc
          · exact old c hc
          · exact atomConds_unjoin hc
      | _ => simp [seedAtom, hp] at step
  unfold Plan.unjoin
  rw [List.map_congr_left conds, List.map_id']

theorem latePlan_unjoin {waiting : List BodyLiteral} {plan : Plan} :
    (latePlan ctx rule waiting plan).map Plan.unjoin =
      latePlan (ctx.withEstimates 0 count) rule waiting plan.unjoin := by
  -- neither guards nor sequential filters bring an anti-join
  have late : ∀ c ∈ waiting.filterMap (compileGuardSql plan.varMap) ++
      rule.body.filterMap (sequentialCond ctx plan.varMap), c.unjoin = c := by
    intro c hc
    obtain hc | hc := List.mem_append.mp hc
    · obtain ⟨l, _, hl⟩ := List.mem_filterMap.mp hc
      exact compileGuardSql_unjoin hl
    · obtain ⟨l, _, hl⟩ := List.mem_filterMap.mp hc
      unfold sequentialCond at hl
      split at hl
      · split at hl <;> cases hl <;> rfl
      · cases hl
  have assigned : plan.unjoin.varMap = plan.varMap := rfl
  have sequential (vm : VarMap) : sequentialCond (ctx.withEstimates 0 count) vm =
    sequentialCond ctx vm := rfl
  simp only [latePlan, assigned, sequential]
  cases rule.body.forM (checkBound rule (rule.body.foldl bindAssign plan.varMap)) with
  | error e => rfl
  | ok _ =>
    simp only [Except.map, Plan.unjoin]
    rw [List.map_append, List.map_congr_left late, List.map_id']

/-- The plan up to the form, in a context where no estimate asks for an anti-join. -/
theorem orderedPlan_unjoin (atoms : List Atom) :
    (orderedPlan ctx rule atoms).map Plan.unjoin =
      orderedPlan (ctx.withEstimates 0 count) rule atoms := by
  have same : seedAtom (ctx.withEstimates 0 count) = seedAtom ctx := rfl
  unfold orderedPlan
  rw [same]
  cases joined : atoms.foldlM (seedAtom ctx (temporalFilters rule))
      (Plan.empty, rule.body.filter BodyLiteral.isGuard) with
  | error e => rfl
  | ok state =>
    have negated := foldlM_seedNegated_unjoin count ctx state.1 rule.body
    rw [unjoin_seedAtoms joined] at negated
    simp only [Except.bind, ← negated]
    cases rule.body.foldlM (seedNegated ctx) state.1 with
    | error e => rfl
    | ok plan => exact latePlan_unjoin count

theorem finish_unjoin (plan : Plan) (head : Atom) (other : Term → Except String Expr) :
    (plan.finish head other).map Query.unjoin = plan.unjoin.finish head other := by
  have columns : plan.unjoin.varMap = plan.varMap := rfl
  unfold Plan.finish
  rw [columns]
  cases headColumn plan.varMap other head.s with
  | error e => rfl
  | ok s =>
    cases headColumn plan.varMap other head.o with
    | error e => rfl
    | ok o => rfl

end Estimates

/-- Compile a rule for an order of its positive atoms and execute the statement, with its
left joins. -/
def orderedOutcome (ctx : Context) (delta : List Quad) (rule : Rule) (head : Atom)
    (atoms : List Atom) : Except String (Option (List Key)) :=
  ((orderedPlan ctx rule atoms).bind fun plan => plan.finish head seedHeadOther).map
    fun q => q.execJoined ctx.toDatabase delta

/-- The same for the order that the compiler chooses. -/
def outcome (ctx : Context) (delta : List Quad) (rule : Rule) (head : Atom) :
    Except String (Option (List Key)) :=
  (compileNonrecursiveRule ctx rule head).map fun q => q.execJoined ctx.toDatabase delta

theorem outcome_eq (ctx : Context) (delta : List Quad) (rule : Rule) (head : Atom) :
    outcome ctx delta rule head = orderedOutcome ctx delta rule head (seedAtoms ctx rule) := by
  unfold outcome orderedOutcome compileNonrecursiveRule
  rw [seedPlan_eq]
  rfl

theorem orderedOutcome_unjoin (ctx : Context) (count : TermId → Int) (delta : List Quad)
    (rule : Rule) (head : Atom) (atoms : List Atom) :
    orderedOutcome ctx delta rule head atoms =
      orderedOutcome (ctx.withEstimates 0 count) delta rule head atoms := by
  unfold orderedOutcome
  rw [← orderedPlan_unjoin count]
  cases orderedPlan ctx rule atoms with
  | error e => rfl
  | ok plan =>
    simp only [Except.map, Except.bind, ← finish_unjoin]
    cases plan.finish head seedHeadOther with
    | error e => rfl
    | ok q =>
      have same : q.unjoin.exec (ctx.withEstimates 0 count).toDatabase delta =
          q.exec ctx.toDatabase delta := exec_unjoin ctx.toDatabase delta q
      simp only [Query.execJoined_eq, same]

/-- The anti-join and `NOT EXISTS` accept the same rows, as often and in the same order. So
the outcome of a rule does not depend on the threshold or on the estimates, in whatever
order its positive atoms are joined; the order that the compiler chooses is the same for
every threshold. -/
theorem antiJoin_agrees :
    (∀ (vm : VarMap) (a : Atom) (relation : List Key) (rows : List (List Key)),
      antiJoinAccepts vm a relation rows = notExistsAccepts vm a relation rows) ∧
    (∀ (ctx : Context) (threshold : Int) (count : TermId → Int) (delta : List Quad) (rule : Rule)
      (head : Atom) (atoms : List Atom),
        orderedOutcome (ctx.withEstimates threshold count) delta rule head atoms =
          orderedOutcome ctx delta rule head atoms) ∧
    ∀ (ctx : Context) (threshold : Int) (delta : List Quad) (rule : Rule) (head : Atom),
      outcome (ctx.withEstimates threshold ctx.tripleCount) delta rule head =
        outcome ctx delta rule head := by
  have independent (ctx : Context) (threshold : Int) (count : TermId → Int) (delta : List Quad)
      (rule : Rule) (head : Atom) (atoms : List Atom) :
      orderedOutcome (ctx.withEstimates threshold count) delta rule head atoms =
        orderedOutcome ctx delta rule head atoms := by
    have here := orderedOutcome_unjoin ctx count delta rule head atoms
    have there :=
      orderedOutcome_unjoin (ctx.withEstimates threshold count) count delta rule head atoms
    exact there.trans here.symm
  refine ⟨antiJoinAccepts_eq, independent, ?_⟩
  intro ctx threshold delta rule head
  have order : seedAtoms (ctx.withEstimates threshold ctx.tripleCount) rule = seedAtoms ctx rule :=
    rfl
  rw [outcome_eq, outcome_eq, order]
  exact independent ctx threshold ctx.tripleCount delta rule head (seedAtoms ctx rule)

end PgRipple.Datalog
