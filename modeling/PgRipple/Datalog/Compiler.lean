import Mathlib.Data.List.Sort
import PgRipple.Datalog.Sql

/-!
# Compiling rules

A rule compiles to the statement that seeds its head predicate, and to one delta
variant for each positive body atom whose predicate is derived. A variant reads
the temporary table of derived triples at that one position and the stored triples
everywhere else.

Both compilers build a `Plan` literal by literal: the `FROM` items, the `WHERE`
conditions and the map from variables to the column that bound them first. They
differ in order. The seed compiler takes all positive atoms first, sorted by
estimated cost, then negation, then the guards that could not be pushed down, and
assignments last; the variant compiler follows the rule body.

A recursive rule is not seeded from its body. `compileRecursiveRule` emits a
transitive closure over the base predicates of the body, whatever the positions of
the variables are.
-/

namespace PgRipple.Datalog

open Storage

/-- `pg_ripple.rule_graph_scope`: only the value `default` has an effect. -/
inductive GraphScope where
  | all | default
  deriving DecidableEq, Repr

/-- The settings that rule evaluation reads, with their defaults. -/
structure Settings where
  ruleGraphScope : GraphScope := .all
  datalogCostReorder : Bool := true
  datalogCostBoundSDivisor : Int := 100
  datalogCostBoundSoDivisor : Int := 10
  datalogAntijoinThreshold : Int := 1000
  datalogMaxDepth : Int := 0
  sameasReasoning : Bool := true
  sameasMaxClusterSize : Int := 100000
  magicSets : Bool := true
  wfsMaxIterations : Nat := 100
  dredEnabled : Bool := true
  dredBatchSize : Nat := 1000
  hypotheticalMaxAssertions : Nat := 10000

/-- What one compiler run consults. -/
structure Context extends Database where
  settings : Settings

/-- Variables and the expressions that stand for them. -/
abbrev VarMap := List (String × Expr)

namespace VarMap

/-- `VarMap::col_ref`. -/
def colRef (vm : VarMap) (v : String) : Option Expr := vm.lookup v

/-- `VarMap::bind`: only the first binding counts. -/
def bind (vm : VarMap) (v : String) (e : Expr) : VarMap :=
  if (vm.colRef v).isSome then vm else vm ++ [(v, e)]

/-- Bind a term if it is a variable. -/
def bindTerm (vm : VarMap) (t : Term) (e : Expr) : VarMap :=
  match t with
  | .var v => vm.bind v e
  | _ => vm

/-- Bind the variables of an atom read through alias `t`. -/
def bindAtom (vm : VarMap) (t : Nat) (a : Atom) : VarMap :=
  ((vm.bindTerm a.s (.col t .s)).bindTerm a.o (.col t .o)).bindTerm a.g (.col t .g)

/-- `render_comparison_term`. -/
def render (vm : VarMap) : Term → Expr
  | .var v => (vm.colRef v).getD .null
  | .const id => .const id
  | .wildcard => .null
  | .defaultGraph => .const 0

/-- A term is not an unbound variable. -/
def isBound (vm : VarMap) : Term → Bool
  | .var v => (vm.colRef v).isSome
  | _ => true

end VarMap

/-- The condition for a graph position without a term: only scope `default` has one. -/
def scopeCond (ctx : Context) (t : Nat) : List Cond :=
  if ctx.settings.ruleGraphScope = .default then [.eq (.col t .g) (.const 0)] else []

/-- `t.c = id` for a constant. -/
def constCond (t : Nat) (c : Col) : Term → List Cond
  | .const id => [.eq (.col t c) (.const id)]
  | _ => []

/-- The `WHERE` conditions that an atom contributes by itself. -/
def atomConds (ctx : Context) (t : Nat) (a : Atom) : List Cond :=
  constCond t .s a.s ++ constCond t .o a.o ++
    match a.g with
    | .var _ => []
    | .const id => [.eq (.col t .g) (.const id)]
    | _ => scopeCond ctx t

/-- `t.c = …` for a constant or a bound variable. -/
def positionCond (vm : VarMap) (t : Nat) (c : Col) : Term → List Cond
  | .var v => ((vm.colRef v).map fun e => Cond.eq (.col t c) e).toList
  | .const id => [.eq (.col t c) (.const id)]
  | _ => []

/-- `build_join_cond`. -/
def buildJoinCond (ctx : Context) (vm : VarMap) (t : Nat) (a : Atom) : List Cond :=
  positionCond vm t .s a.s ++ positionCond vm t .o a.o ++
    match a.g with
    | .var _ | .const _ => positionCond vm t .g a.g
    | _ => scopeCond ctx t

/-- The comparison value of a position in `build_not_exists_conds` and
`build_antijoin_on_cond`; an unbound variable imposes no condition. -/
def negatedRef (vm : VarMap) : Term → Option Expr
  | .var v => vm.colRef v
  | .const id => some (.const id)
  | _ => none

/-- The guards: comparisons and string built-ins. -/
def BodyLiteral.isGuard : BodyLiteral → Bool
  | .compare .. | .stringBuiltin _ => true
  | _ => false

/-- `guard_fully_bound`, on guards. -/
def guardFullyBound (vm : VarMap) : BodyLiteral → Bool
  | .compare l _ r => vm.isBound l && vm.isBound r
  | .stringBuiltin b => b.args.all vm.isBound
  | _ => false

/-- `compile_guard_sql`, on guards. -/
def compileGuardSql (vm : VarMap) : BodyLiteral → Option Cond
  | .compare l op r => some (.compare (vm.render l) op (vm.render r))
  | .stringBuiltin b => some (.builtin (b.map vm.render))
  | _ => none

/-- `(l op r)`, as `Assign` binds it. -/
def assignExpr (vm : VarMap) (l : Term) (op : ArithOp) (r : Term) : Expr :=
  .arith op (vm.render l) (vm.render r)

/-- The parts of a statement that the compilers accumulate. -/
structure Plan where
  from_ : List FromItem
  where_ : List Cond
  varMap : VarMap

namespace Plan

def empty : Plan := ⟨[], [], []⟩

/-- The next alias is `t{n}` for `n` items so far. -/
def nextAlias (plan : Plan) : Nat := plan.from_.length

def addCond (plan : Plan) (c : Cond) : Plan := { plan with where_ := plan.where_ ++ [c] }

/-- Add a positive atom. The first item has no `ON` clause, and conditions pushed
down to it go to `WHERE`. -/
def addAtom (ctx : Context) (plan : Plan) (source : Source) (a : Atom)
    (pushed : List Cond) : Plan :=
  let t := plan.nextAlias
  let vm := plan.varMap.bindAtom t a
  let where_ := plan.where_ ++ atomConds ctx t a
  if t = 0 then ⟨plan.from_ ++ [⟨source, []⟩], where_ ++ pushed, vm⟩
  else ⟨plan.from_ ++ [⟨source, buildJoinCond ctx vm t a ++ pushed⟩], where_, vm⟩

end Plan

/-- The column that the head selects, with the caller's error for other terms. -/
def headColumn (vm : VarMap) (other : Term → Except String Expr) : Term → Except String Expr
  | .var v =>
    match vm.colRef v with
    | some e => .ok e
    | none => .error s!"unbound variable ?{v} in head"
  | .const id => .ok (.const id)
  | t => other t

/-- `head_g_expr`; `g_var_{v}` names no column. -/
def headGExpr : Term → Option TermId
  | .const id => some id
  | .var _ => none
  | .defaultGraph => some 0
  | .wildcard => some 0

/-- Select the head from a finished plan. -/
def Plan.finish (plan : Plan) (head : Atom) (other : Term → Except String Expr) :
    Except String Query := do
  let s ← headColumn plan.varMap other head.s
  let o ← headColumn plan.varMap other head.o
  return ⟨plan.from_, plan.where_, s, o, headGExpr head.g⟩

/-- `i64::MAX`. -/
def i64Max : Int := 2 ^ 63 - 1

/-- The sort key of `cost_order_atoms`. -/
def atomCost (ctx : Context) (a : Atom) : Int :=
  let base := match a.p with
    | .const id => ctx.tripleCount id
    | _ => i64Max
  let bound : Term → Bool
    | .var _ | .wildcard => false
    | _ => true
  let divisor := match bound a.s, bound a.o with
    | true, true => ctx.settings.datalogCostBoundSoDivisor
    | true, false | false, true => ctx.settings.datalogCostBoundSDivisor
    | false, false => 1
  base.tdiv (max divisor 1)

/-- `cost_order_atoms`: a stable sort by estimated cost. -/
def costOrderAtoms (ctx : Context) (rule : Rule) : List Atom :=
  rule.positiveAtoms.insertionSort fun a b => atomCost ctx a ≤ atomCost ctx b

/-- The positive atoms in the order of the seed statement. -/
def seedAtoms (ctx : Context) (rule : Rule) : List Atom :=
  if ctx.settings.datalogCostReorder then costOrderAtoms ctx rule else rule.positiveAtoms

/-- The filters that restrict `temporal_facts` rows. -/
def temporalFilters (rule : Rule) : List TemporalFilter :=
  rule.body.filterMap fun
    | .temporalFilter f => if f.isSequential then none else some f
    | _ => none

/-- The table that a seed reads for a predicate. -/
def seedSource (ctx : Context) (filters : List TemporalFilter) (p : TermId) : Source :=
  if !filters.isEmpty && ctx.ext.isTemporalPredicate p then .temporal p filters else .stored p

/-- Step 3 for one atom, with the guards not yet pushed down. -/
def seedAtom (ctx : Context) (filters : List TemporalFilter)
    (state : Plan × List BodyLiteral) (a : Atom) : Except String (Plan × List BodyLiteral) :=
  let (plan, guards) := state
  match a.p with
  | .const p =>
    let vm := plan.varMap.bindAtom plan.nextAlias a
    let (ready, waiting) := guards.partition (guardFullyBound vm)
    let pushed := ready.filterMap (compileGuardSql vm)
    .ok (plan.addAtom ctx (seedSource ctx filters p) a pushed, waiting)
  | .var _ => .error "variable predicate in rule body not supported"
  | _ => .error "invalid predicate term in rule body"

/-- Step 4 for one literal: anti-join or `NOT EXISTS`. -/
def seedNegated (ctx : Context) (plan : Plan) : BodyLiteral → Except String Plan
  | .negated a =>
    match a.p with
    | .const p =>
      let threshold := ctx.settings.datalogAntijoinThreshold
      let s := negatedRef plan.varMap a.s
      let o := negatedRef plan.varMap a.o
      if 0 < threshold ∧ threshold ≤ ctx.tripleCount p then .ok (plan.addCond (.antiJoin p s o))
      else .ok (plan.addCond (.notExists p s o))
    | _ => .error "variable predicate in NOT atom not supported"
  | _ => .ok plan

/-- `resolve_predicate_id`. -/
def resolvePredicateId (ext : External) (pred : String) : TermId :=
  let iri := if pred.startsWith "<" && pred.endsWith ">" then (pred.drop 1).dropEnd 1
    else pred.toSlice
  (ext.lookupIri iri.toString).getD 0

/-- `resolve_term_ref`: `none` stands for the condition `TRUE`. -/
def resolveTermRef (ext : External) (vm : VarMap) (tok : String) : Option Expr :=
  let tok := tok.trimAscii.toString
  if tok.startsWith "?" then vm.colRef (tok.drop 1).toString
  else some (.const (resolvePredicateId ext tok))

/-- Step 5b for one literal. -/
def sequentialCond (ctx : Context) (vm : VarMap) : BodyLiteral → Option Cond
  | .temporalFilter f =>
    match f with
    | .within _ | .consecutive .. => some (.sequential f [])
    | .sequence s1 _ o1 s2 _ o2 _ =>
      some (.sequential f ([s1, o1, s2, o2].map (resolveTermRef ctx.ext vm)))
    | _ => none
  | _ => none

/-- Step 6 for one literal. -/
def bindAssign (vm : VarMap) : BodyLiteral → VarMap
  | .assign v l op r => vm.bind v (assignExpr vm l op r)
  | _ => vm

/-- The first line of the rule text. -/
def headText (rule : Rule) : String :=
  (((rule.ruleText.splitOn "\n").headD rule.ruleText).trimAscii).toString

/-- The check M-2 for one literal: every variable of a comparison or an assignment is bound. -/
def checkBound (rule : Rule) (vm : VarMap) : BodyLiteral → Except String Unit
  | .compare l _ r =>
    [l, r].forM fun
      | .var v =>
        if (vm.colRef v).isSome then .ok () else
          .error (s!"unbound variable ?{v} in comparison in rule '" ++ headText rule ++
            "': every variable in a comparison must be bound by a positive body literal")
      | _ => .ok ()
  | .assign var l _ r =>
    [l, r].forM fun
      | .var v =>
        if (vm.colRef v).isSome || v = var then .ok () else
          .error (s!"unbound variable ?{v} in assignment in rule '" ++ headText rule ++
            "': every variable in an arithmetic expression must be " ++
              "bound by a positive body literal")
      | _ => .ok ()
  | _ => .ok ()

/-- Terms of the seed's head that are neither variable nor constant. -/
def seedHeadOther : Term → Except String Expr
  | .defaultGraph => .ok (.const 0)
  | _ => .error "wildcard in head not allowed"

/-- The plan of `compile_nonrecursive_rule`. -/
def seedPlan (ctx : Context) (rule : Rule) : Except String Plan := do
  let guards := rule.body.filter BodyLiteral.isGuard
  let (plan, waiting) ←
    (seedAtoms ctx rule).foldlM (seedAtom ctx (temporalFilters rule)) (Plan.empty, guards)
  let plan ← rule.body.foldlM (seedNegated ctx) plan
  let late := waiting.filterMap (compileGuardSql plan.varMap) ++
    rule.body.filterMap (sequentialCond ctx plan.varMap)
  let vm := rule.body.foldl bindAssign plan.varMap
  rule.body.forM (checkBound rule vm)
  return { plan with where_ := plan.where_ ++ late, varMap := vm }

/-- Steps 5 and 6 and the check M-2, on the plan of the atoms. -/
def latePlan (ctx : Context) (rule : Rule) (waiting : List BodyLiteral) (plan : Plan) :
    Except String Plan :=
  let late := waiting.filterMap (compileGuardSql plan.varMap) ++
    rule.body.filterMap (sequentialCond ctx plan.varMap)
  let vm := rule.body.foldl bindAssign plan.varMap
  (rule.body.forM (checkBound rule vm)).map fun _ =>
    { plan with where_ := plan.where_ ++ late, varMap := vm }

/-- The plan for a given order of the positive atoms. -/
def orderedPlan (ctx : Context) (rule : Rule) (atoms : List Atom) : Except String Plan :=
  (atoms.foldlM (seedAtom ctx (temporalFilters rule))
    (Plan.empty, rule.body.filter BodyLiteral.isGuard)).bind fun state =>
  (rule.body.foldlM (seedNegated ctx) state.1).bind (latePlan ctx rule state.2)

theorem seedPlan_eq (ctx : Context) (rule : Rule) :
    seedPlan ctx rule = orderedPlan ctx rule (seedAtoms ctx rule) := by
  have last (waiting : List BodyLiteral) : latePlan ctx rule waiting = fun plan =>
      (rule.body.forM (checkBound rule (rule.body.foldl bindAssign plan.varMap))).bind fun _ =>
        .ok { plan with
          where_ := plan.where_ ++ (waiting.filterMap (compileGuardSql plan.varMap) ++
            rule.body.filterMap (sequentialCond ctx plan.varMap))
          varMap := rule.body.foldl bindAssign plan.varMap } := by
    funext plan
    simp only [latePlan]
    cases rule.body.forM (checkBound rule (rule.body.foldl bindAssign plan.varMap)) <;> rfl
  simp only [orderedPlan, last]
  rfl

/-- `compile_nonrecursive_rule`. -/
def compileNonrecursiveRule (ctx : Context) (rule : Rule) (head : Atom) : Except String Query := do
  (← seedPlan ctx rule).finish head seedHeadOther

/-- The atoms that `compile_recursive_rule` takes as base. -/
def baseAtoms (rule : Rule) (headPred : TermId) : List Atom :=
  rule.positiveAtoms.filter fun a => a.p ≠ .const headPred

/-- `compile_recursive_rule`. -/
def compileRecursiveRule (ctx : Context) (rule : Rule) (head : Atom) (headPred : TermId) :
    Except String RecQuery :=
  let variablePred : Atom → Bool := fun a =>
    match a.p with
    | .var _ => true
    | _ => false
  if rule.positiveAtoms.any variablePred then
    .error "variable predicate in recursive rule body not supported"
  else
    let base := baseAtoms rule headPred
    let selects := base.filterMap Atom.pred?
    let constant : Term → Option TermId
      | .const id => some id
      | _ => none
    let graphVar := match head.g with
      | .var _ => true
      | _ => false
    .ok {
      bases := if selects.isEmpty then [headPred] else selects
      defaultGraphOnly :=
        !selects.isEmpty && ctx.settings.ruleGraphScope = .default
      stepPred := (base.head?.bind Atom.pred?).getD headPred
      joinGraph := graphVar
      maxDepth := ctx.settings.datalogMaxDepth
      s := constant head.s
      o := constant head.o
      where_ := [] }

/-- `compile_single_rule_to`: the statement and the predicate it derives. -/
def compileSingleRuleTo (ctx : Context) (rule : Rule) : Except String (TermId × Stmt) :=
  match rule.head with
  | none => .error "cannot compile constraint rule as INSERT"
  | some head =>
    match head.p with
    | .const p =>
      if rule.isRecursive p then do return (p, .recursive (← compileRecursiveRule ctx rule head p))
      else do return (p, .select (← compileNonrecursiveRule ctx rule head))
    | .var _ => .error "variable predicate in rule head is not supported"
    | _ => .error "invalid predicate term in rule head"

/-- One literal of `compile_rule_with_one_delta_atom`. -/
def variantLiteral (ctx : Context) (deltaPos : Nat) (plan : Plan) :
    BodyLiteral → Except String Plan
  | .positive a =>
    match a.p with
    | .const p =>
      let source := if plan.nextAlias = deltaPos then .delta p else .stored p
      .ok (plan.addAtom ctx source a [])
    | _ => .error "variable predicate in body not supported"
  | .negated a =>
    match a.p with
    | .const p =>
      .ok (plan.addCond (.notExists p (negatedRef plan.varMap a.s) (negatedRef plan.varMap a.o)))
    | _ => .error "variable predicate in NOT atom not supported"
  | .compare l op r => .ok (plan.addCond (.compare (plan.varMap.render l) op
      (plan.varMap.render r)))
  | .stringBuiltin b => .ok (plan.addCond (.builtin (b.map plan.varMap.render)))
  | .assign v l op r =>
    .ok { plan with varMap := plan.varMap.bind v (assignExpr plan.varMap l op r) }
  | .aggregate _ => .ok plan
  | .temporalFilter _ => .ok plan

/-- The plan of `compile_rule_with_one_delta_atom`. -/
def variantPlan (ctx : Context) (rule : Rule) (deltaPos : Nat) : Except String Plan :=
  rule.body.foldlM (variantLiteral ctx deltaPos) Plan.empty

/-- `compile_rule_with_one_delta_atom`. -/
def compileRuleWithOneDeltaAtom (ctx : Context) (rule : Rule) (head : Atom) (deltaPos : Nat) :
    Except String Query := do
  (← variantPlan ctx rule deltaPos).finish head
    fun _ => .error "wildcard/invalid in head not allowed"

/-- The positions of positive atoms with a derived predicate. -/
def deltaPositions (rule : Rule) (derived : List TermId) : List Nat :=
  (List.range rule.positiveAtoms.length).filter fun i =>
    (rule.positiveAtoms[i]?.bind Atom.pred?).any (· ∈ derived)

/-- `compile_rule_delta_variants_to`: one error loses all variants of the rule. -/
def compileRuleDeltaVariantsTo (ctx : Context) (rule : Rule) (derived : List TermId) :
    Except String (List (TermId × Query)) :=
  match rule.head with
  | none => .ok []
  | some head =>
    match head.p with
    | .const p =>
      (deltaPositions rule derived).mapM fun i => do
        return (p, ← compileRuleWithOneDeltaAtom ctx rule head i)
    | _ => .error "variable predicate in rule head is not supported"

end PgRipple.Datalog
