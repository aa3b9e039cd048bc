import PgRipple.Lib.Run
import PgRipple.Datalog.Materialise
import PgRipple.Datalog.Stratify

/-!
# Cached plans of aggregate rules

`infer_agg` compiles the aggregate rules of a rule set to `INSERT … GROUP BY` statements
and keeps them in a cache of the backend, under the name of the rule set. A statement
fixes where the aggregated predicate lies: in `vp_rare` only, or also in tables of its
own. It also fixes the graphs that are read. Loading or dropping rules empties the entry
of the backend that does it, and nothing else ever does.

A cached plan is as good as a fresh one as long as no predicate that some plan reads
from `vp_rare` alone gets tables, no other backend changes the rules, and the graph
scope stays what it was.
-/

namespace PgRipple.Datalog

open Storage

/-- What `compile_aggregate_rule` writes:
`INSERT INTO vp_{target}_delta (s, o, g) SELECT … FROM … GROUP BY … ON CONFLICT DO NOTHING`. -/
structure AggStmt where
  target : TermId
  func : AggFunc
  aggCol : Col
  groupCol : Col
  /-- The aggregate is inserted as the object. -/
  resultInO : Bool
  pred : TermId
  /-- The source is the view of the predicate and its rows in `vp_rare`, not only these. -/
  dedicated : Bool
  /-- `t0.g = 0`. -/
  defaultGraphOnly : Bool
  s : Option TermId
  o : Option TermId
  deriving DecidableEq, Repr

/-- The constant in a position of an atom. -/
def Term.const? : Term → Option TermId
  | .const id => some id
  | _ => none

/-- The aggregate literals of a rule body. -/
def Rule.aggregates (r : Rule) : List AggregateLiteral :=
  r.body.filterMap fun
    | .aggregate a => some a
    | _ => none

def Rule.isAggregate (r : Rule) : Bool := !r.aggregates.isEmpty

/-- The columns that are aggregated and grouped by. -/
def AggregateLiteral.columns (a : AggregateLiteral) : Except String (Col × Col) :=
  match a.atom.s, a.atom.o with
  | .var s, .var o =>
    if s = a.aggVar then .ok (.s, .o)
    else if o = a.aggVar then .ok (.o, .s)
    else .error ("agg_var '" ++ a.aggVar ++ "' not found in atom s or o positions")
  | .const _, .var o =>
    if o = a.aggVar then .ok (.o, .s)
    else .error ("agg_var '" ++ a.aggVar ++ "' not in atom (s=const, o=" ++ o ++ ")")
  | .var s, .const _ =>
    if s = a.aggVar then .ok (.s, .o)
    else .error ("agg_var '" ++ a.aggVar ++ "' not in atom (s=" ++ s ++ ", o=const)")
  | _, _ => .error "aggregate atom must have at least one variable"

/-- `compile_aggregate_rule`, with target `vp_{target}_delta`. -/
def compileAggregateRule (scope : GraphScope) (st : Store) (r : Rule) (target : TermId) :
    Except String AggStmt :=
  match r.head with
  | none => .error "aggregate rule must have a head"
  | some head =>
    match r.aggregates.head? with
    | none => .error "no aggregate literal found in rule body"
    | some a =>
      match a.atom.p with
      | .const pred =>
        match a.columns with
        | .error e => .error e
        | .ok (aggCol, groupCol) =>
          if head.s ≠ .var a.resultVar ∧ head.o ≠ .var a.resultVar then
            .error ("result_var '" ++ a.resultVar ++ "' not found in head subject or object")
          else
            .ok {
              target := target
              func := a.func
              aggCol := aggCol
              groupCol := groupCol
              resultInO := head.o = .var a.resultVar
              pred := pred
              dedicated := st.isDedicated pred
              defaultGraphOnly := scope = .default
              s := a.atom.s.const?
              o := a.atom.o.const? }
      | _ => .error "aggregate atom predicate must be a constant"

/-- `pg_ripple.encode_term(AGG(…)::text, 2)`: the id of the aggregate of some ids. -/
abbrev Aggregation := AggFunc → List Int → Int

namespace AggStmt

/-- The rows of the `FROM` clause; a triple that is in both places counts twice. -/
def source (q : AggStmt) (st : Store) : List Key :=
  (if q.dedicated then (st.tables q.pred).htapView.map Row.key else []) ++
    (st.rare.rows.filter fun r => r.quad.p = q.pred).map fun r => r.quad.key

/-- The rows of the `SELECT`. -/
def rows (agg : Aggregation) (q : AggStmt) (st : Store) : List Key :=
  let rows := (q.source st).filter fun k =>
    (!q.defaultGraphOnly || k.g = 0) && q.s.all (· = k.s) && q.o.all (· = k.o)
  (rows.map q.groupCol.of).eraseDups.map fun x =>
    let value := agg q.func ((rows.filter fun k => q.groupCol.of k = x).map q.aggCol.of)
    if q.resultInO then ⟨x, value, 0⟩ else ⟨value, x, 0⟩

/-- Execute the statement: the triples inserted, and the store. A statement that names a
table that does not exist is reported and skipped. -/
def exec (agg : Aggregation) (session : Session) (q : AggStmt) (st : Store) : List Quad × Store :=
  if st.isDedicated q.target && (!q.dedicated || st.isDedicated q.pred) then
    let keys := q.rows agg st
    let t := st.tables q.target
    let inserted := keys.eraseDups.filter fun k => ¬ t.InDelta k
    let (stamped, seq) := st.seq.stamp session keys
    (inserted.map (Key.quad · q.target),
      { st with seq := seq }.setTables q.target
        { t with delta := t.delta.insertAll (stamped.map fun (k, i) => ⟨k, i, 0⟩) })
  else ([], st)

/-- Execute statements one after the other. -/
def execAll (agg : Aggregation) (session : Session) : List AggStmt → Store → List Quad × Store
  | [], st => ([], st)
  | q :: qs, st =>
    let (inserted, st) := q.exec agg session st
    let (more, st) := execAll agg session qs st
    (inserted ++ more, st)

end AggStmt

/-- Compile the aggregate rules; each head predicate first gets tables. Rules that do not
compile are reported and skipped. -/
def compileAggregates (scope : GraphScope) : List Rule → Store → List AggStmt × Store
  | [], st => ([], st)
  | r :: rs, st =>
    match r.headPred with
    | none => compileAggregates scope rs st
    | some h =>
      let st := st.ensureHtapTables h
      let rest := compileAggregates scope rs st
      match compileAggregateRule scope st r h with
      | .ok q => (q :: rest.1, rest.2)
      | .error _ => rest

/-- Predicates that positive edges lead to. -/
def reachPositive (edges : List (TermId × TermId)) : Nat → List TermId → List TermId
  | 0, seen => seen
  | n + 1, seen =>
    reachPositive edges n (seen ++ (edges.filter fun e => e.1 ∈ seen).map Prod.snd).dedup

/-- `check_aggregation_stratification`. -/
def checkAggregationStratification (rules : List Rule) : Except String Unit :=
  let aggDeps := rules.flatMap fun r =>
    match r.headPred with
    | none => []
    | some h => (r.aggregates.filterMap fun a => a.atom.pred?).map (h, ·)
  let posDeps := rules.flatMap fun r =>
    match r.headPred with
    | none => []
    | some h => (r.positiveAtoms.filterMap Atom.pred?).map (h, ·)
  if aggDeps.any fun (h, p) => h ∈ reachPositive posDeps posDeps.length [p] then
    .error ("PT510: aggregation-stratification violation: a derived predicate depends on " ++
      "another predicate via aggregation, but that predicate is also derived through positive " ++
      "rules; this creates a cycle through aggregation; ensure the aggregated predicate is " ++
      "fully computed before the aggregate rule runs")
  else .ok ()

/-- An entry of a backend's aggregate cache. -/
structure AggEntry where
  session : Session
  ruleSet : String
  stmts : List AggStmt

/-- The entry is the one of this backend and rule set. -/
def AggEntry.isFor (session : Session) (ruleSet : String) (e : AggEntry) : Bool :=
  e.session = session && e.ruleSet = ruleSet

/-- The store, the active rules of each rule set in catalog order, and the aggregate caches
of all backends. -/
structure AggSystem where
  store : Store
  rules : String → List Rule
  aggCache : List AggEntry

namespace AggSystem

def initial : AggSystem := ⟨Store.initial, fun _ => [], []⟩

/-- The cached statements; an entry without statements is as good as none. -/
def cached (sys : AggSystem) (session : Session) (ruleSet : String) : List AggStmt :=
  ((sys.aggCache.find? (AggEntry.isFor session ruleSet)).map AggEntry.stmts).getD []

/-- `invalidate`. -/
def invalidate (session : Session) (ruleSet : String) (sys : AggSystem) : AggSystem :=
  { sys with aggCache := sys.aggCache.filter fun e => !e.isFor session ruleSet }

def setCache (sys : AggSystem) (session : Session) (ruleSet : String) (stmts : List AggStmt) :
    AggSystem :=
  { sys with aggCache := ⟨session, ruleSet, stmts⟩ :: (sys.invalidate session ruleSet).aggCache }

/-- `lookup_agg`. -/
def lookupAgg (enabled : Bool) (session : Session) (ruleSet : String) (sys : AggSystem) :
    Option (List AggStmt) :=
  if enabled && !(sys.cached session ruleSet).isEmpty then some (sys.cached session ruleSet)
  else none

/-- `store_agg`. -/
def storeAgg (enabled : Bool) (session : Session) (ruleSet : String) (stmts : List AggStmt)
    (sys : AggSystem) : AggSystem :=
  if enabled then sys.setCache session ruleSet stmts else sys

/-- The catalog order of `store_rules`: by stratum, or as given if there are no strata. -/
def storedRules (rules : List Rule) : List Rule :=
  match stratify rules with
  | .ok strata => strata.flatMap Stratum.rules
  | .error _ => rules

def setRules (sys : AggSystem) (ruleSet : String) (rules : List Rule) : AggSystem :=
  { sys with rules := Function.update sys.rules ruleSet rules }

/-- `load_rules`, on a text that parses. -/
def loadRules (session : Session) (ruleSet : String) (rules : List Rule) (sys : AggSystem) :
    AggSystem :=
  (sys.invalidate session ruleSet).setRules ruleSet (storedRules rules)

def dropRules (session : Session) (ruleSet : String) (sys : AggSystem) : AggSystem :=
  (sys.invalidate session ruleSet).setRules ruleSet []

def aggRules (sys : AggSystem) (ruleSet : String) : List Rule :=
  (sys.rules ruleSet).filter Rule.isAggregate

/-- The aggregate rules are not reached: there are no rules, or they violate the
aggregation stratification. -/
def skipsAggregates (sys : AggSystem) (ruleSet : String) : Bool :=
  (sys.rules ruleSet).isEmpty || !(checkAggregationStratification (sys.rules ruleSet)).isOk

/-- The first half of `run_inference_agg`: the rules without aggregates. -/
def inferNormal (env : Environment) (session : Session) (ruleSet : String) (sys : AggSystem) :
    Option (Report × Store) :=
  let nonAggRules := (sys.rules ruleSet).filter fun r => !r.isAggregate
  if nonAggRules.isEmpty then some (⟨0, 0⟩, sys.store)
  else runSeminaiveInner env session nonAggRules sys.store

/-- `run_inference_agg`: all derived triples, those of aggregates, and iterations. -/
def runInferenceAgg (agg : Aggregation) (env : Environment) (enabled : Bool) (session : Session)
    (ruleSet : String) (sys : AggSystem) : Option ((Int × Int × Nat) × AggSystem) := do
  let (report, st) ← sys.inferNormal env session ruleSet
  if sys.skipsAggregates ruleSet then
    return ((report.totalDerived, 0, report.iterationCount), { sys with store := st })
  let (stmts, sys) :=
    match sys.lookupAgg enabled session ruleSet with
    | some stmts => (stmts, { sys with store := st })
    | none =>
      let (stmts, st) := compileAggregates env.settings.ruleGraphScope (sys.aggRules ruleSet) st
      (stmts, { sys with store := st }.storeAgg enabled session ruleSet stmts)
  let (inserted, st) := AggStmt.execAll agg session stmts sys.store
  return ((report.totalDerived + inserted.length, inserted.length, report.iterationCount),
    { sys with store := st })

end AggSystem

inductive AggEvent where
  | loadRules (session : Session) (ruleSet : String) (rules : List Rule)
  | dropRules (session : Session) (ruleSet : String)
  /-- `infer_agg`, with the settings at that moment. -/
  | inferAgg (env : Environment) (enabled : Bool) (session : Session) (ruleSet : String)
  | insertTriple (cfg : Config) (session : Session) (q : Quad)
  | deleteTriple (session : Session) (q : Quad)
  | promotePredicate (p : TermId)
  | mergePredicate (cfg : Config) (p : TermId)

namespace AggSystem

/-- One event; `none` if an inference fails. -/
def step (agg : Aggregation) (sys : AggSystem) : AggEvent → Option AggSystem
  | .loadRules session ruleSet rules => some (sys.loadRules session ruleSet rules)
  | .dropRules session ruleSet => some (sys.dropRules session ruleSet)
  | .inferAgg env enabled session ruleSet =>
    (sys.runInferenceAgg agg env enabled session ruleSet).map Prod.snd
  | .insertTriple cfg session q =>
    some { sys with store := (Store.insertTriple cfg session q sys.store).2 }
  | .deleteTriple session q => some { sys with store := (Store.deleteTriple session q sys.store).2 }
  | .promotePredicate p => some { sys with store := sys.store.promotePredicate p }
  | .mergePredicate cfg p => some { sys with store := (Store.mergePredicate cfg p sys.store).2 }

/-- Whenever `infer_agg` executes cached statements, they insert the triples that freshly
compiled ones would insert. -/
def Transparent (agg : Aggregation) (sys : AggSystem) : AggEvent → Prop
  | .inferAgg env enabled session ruleSet =>
    sys.skipsAggregates ruleSet = false → ∀ report st,
      sys.inferNormal env session ruleSet = some (report, st) →
      ∀ stmts, sys.lookupAgg enabled session ruleSet = some stmts →
        (AggStmt.execAll agg session stmts st).1 =
          let fresh := compileAggregates env.settings.ruleGraphScope (sys.aggRules ruleSet) st
          (AggStmt.execAll agg session fresh.1 fresh.2).1
  | _ => True

/-- Some cached statement reads the predicate from `vp_rare` alone. -/
def ReadRare (sys : AggSystem) (p : TermId) : Prop :=
  ∃ e ∈ sys.aggCache, ∃ q ∈ e.stmts, q.pred = p ∧ q.dedicated = false

/-- `infer_agg` compiles the aggregate rules. -/
def compiles (enabled : Bool) (session : Session) (ruleSet : String) (sys : AggSystem) : Bool :=
  !sys.skipsAggregates ruleSet && (sys.lookupAgg enabled session ruleSet).isNone

/-- The predicates that the event may give tables to. -/
def givesTables (sys : AggSystem) : AggEvent → List TermId
  | .inferAgg _ enabled session ruleSet =>
    if sys.compiles enabled session ruleSet then
      (sys.aggRules ruleSet).filterMap Rule.headPred
    else []
  | .insertTriple cfg session q =>
    if !sys.store.isDedicated q.p &&
        decide (cfg.vpPromotionThreshold ≤
          (Store.insertIntoVpRare session q sys.store).2.tripleCount q.p) then [q.p] else []
  | .promotePredicate p => [p]
  | _ => []

/-- A rule does not aggregate a predicate that only gets tables as the head of a later
rule. -/
def HeadsFirst (st : Store) (rules : List Rule) : Prop :=
  rules.Pairwise fun r r' => ∀ a ∈ r.aggregates, ∀ p ∈ a.atom.pred?, r'.headPred = some p →
    st.isDedicated p = true

/-- Rules and graph scope stay what they were when a cached plan was compiled, and a new
plan is not outdated at once. -/
def KeepsRules (sys : AggSystem) : AggEvent → Prop
  | .loadRules session ruleSet _ =>
    ∀ e ∈ sys.aggCache, e.ruleSet = ruleSet → e.session ≠ session → e.stmts = []
  | .dropRules session ruleSet =>
    ∀ e ∈ sys.aggCache, e.ruleSet = ruleSet → e.session ≠ session → e.stmts = []
  | .inferAgg env enabled session ruleSet =>
    (∀ q ∈ sys.cached session ruleSet,
      q.defaultGraphOnly = decide (env.settings.ruleGraphScope = .default)) ∧
    (sys.compiles enabled session ruleSet = true → HeadsFirst sys.store (sys.aggRules ruleSet))
  | _ => True

/-- The event leaves cached plans valid: no predicate that one of them reads from `vp_rare`
alone gets tables, and its rules stay. -/
def KeepsPlans (sys : AggSystem) (event : AggEvent) : Prop :=
  (∀ p ∈ sys.givesTables event, ¬ sys.ReadRare p) ∧ sys.KeepsRules event

instance (sys : AggSystem) (p : TermId) : Decidable (sys.ReadRare p) :=
  inferInstanceAs (Decidable (∃ e ∈ sys.aggCache, _))

instance (st : Store) (rules : List Rule) : Decidable (HeadsFirst st rules) :=
  inferInstanceAs (Decidable (rules.Pairwise _))

instance decidableKeepsRules (sys : AggSystem) : (event : AggEvent) → Decidable
    (sys.KeepsRules event)
  | .loadRules _ _ _ => inferInstanceAs (Decidable (∀ e ∈ sys.aggCache, _))
  | .dropRules _ _ => inferInstanceAs (Decidable (∀ e ∈ sys.aggCache, _))
  | .inferAgg _ _ _ _ => inferInstanceAs (Decidable (_ ∧ _))
  | .insertTriple _ _ _ => isTrue trivial
  | .deleteTriple _ _ => isTrue trivial
  | .promotePredicate _ => isTrue trivial
  | .mergePredicate _ _ => isTrue trivial

instance (sys : AggSystem) (event : AggEvent) : Decidable (sys.KeepsPlans event) :=
  inferInstanceAs (Decidable (_ ∧ _))

end AggSystem

section Compile

variable {scope : GraphScope} {st st' : Store} {r : Rule} {rules : List Rule} {h p : TermId}
  {q : AggStmt} {agg : Aggregation} {session : Session}

/-- The statements for a store whose predicates stay where they are. -/
def plans (scope : GraphScope) (st : Store) (rules : List Rule) : List AggStmt :=
  rules.filterMap fun r => r.headPred.bind fun h => (compileAggregateRule scope st r h).toOption

/-- All that is read of the store is the layout of the aggregated predicate. -/
theorem compileAggregateRule_eq_ok (compiled : compileAggregateRule scope st r h = .ok q) :
    (∃ a ∈ r.aggregates, a.atom.pred? = some q.pred) ∧ q.dedicated = st.isDedicated q.pred ∧
      q.defaultGraphOnly = decide (scope = .default) := by
  simp only [compileAggregateRule] at compiled
  split at compiled
  · cases compiled
  · split at compiled
    · cases compiled
    · rename_i a first
      split at compiled
      · rename_i pred constant
        split at compiled
        · cases compiled
        · split at compiled
          · cases compiled
          · cases compiled
            exact ⟨⟨a, List.mem_of_mem_head? first, by rw [Atom.pred?, constant]⟩, rfl, rfl⟩
      · cases compiled

/-- In another store the rule compiles to the same statement, but for the layout. -/
theorem compileAggregateRule_layout :
    compileAggregateRule scope st' r h =
      (compileAggregateRule scope st r h).map fun q =>
        { q with dedicated := st'.isDedicated q.pred } := by
  simp only [compileAggregateRule]
  split
  · rfl
  · split
    · rfl
    · split
      · split
        · rfl
        · split <;> rfl
      · rfl

theorem compileAggregateRule_congr
    (same : ∀ q, compileAggregateRule scope st r h = .ok q → st'.isDedicated q.pred = q.dedicated) :
    compileAggregateRule scope st' r h = compileAggregateRule scope st r h := by
  rw [compileAggregateRule_layout]
  cases compiled : compileAggregateRule scope st r h with
  | error e => rfl
  | ok q => simp only [Except.map, same q compiled]

theorem isDedicated_ensureHtapTables :
    (st.ensureHtapTables h).isDedicated p = true ↔ st.isDedicated p = true ∨ p = h := by
  simp only [Store.isDedicated, Store.ensureHtapTables, Store.rebuildHtapView,
    Store.setTables_predicates, UniqueTable.find?_upsert]
  by_cases same : p = h
  · subst same
    cases st.predicates.find? p <;> simp
  · simp [same]

theorem isDedicated_compileAggregates :
    (compileAggregates scope rules st).2.isDedicated p = true ↔
      st.isDedicated p = true ∨ p ∈ rules.filterMap Rule.headPred := by
  induction rules generalizing st with
  | nil => simp [compileAggregates]
  | cons r rs ih =>
    rw [compileAggregates]
    cases head : r.headPred with
    | none => simpa [head] using ih
    | some h =>
      have rest : (compileAggregates scope rs (st.ensureHtapTables h)).2.isDedicated p = true ↔
          st.isDedicated p = true ∨ p ∈ (r :: rs).filterMap Rule.headPred := by
        rw [ih, isDedicated_ensureHtapTables, List.filterMap_cons_some head, List.mem_cons,
          or_assoc]
      dsimp only
      split <;> exact rest

theorem mem_plans_iff :
    q ∈ plans scope st rules ↔
      ∃ r ∈ rules, ∃ h, r.headPred = some h ∧ compileAggregateRule scope st r h = .ok q := by
  have ok (x : Except String AggStmt) : x.toOption = some q ↔ x = .ok q := by
    cases x <;> simp [Except.toOption]
  simp only [plans, List.mem_filterMap, Option.bind_eq_some_iff, ok]

theorem plans_congr (same : ∀ q ∈ plans scope st rules, st'.isDedicated q.pred = q.dedicated) :
    plans scope st' rules = plans scope st rules := by
  refine List.filterMap_congr ?_
  intro r hr
  cases head : r.headPred with
  | none => rfl
  | some h =>
    have compiled : compileAggregateRule scope st' r h = compileAggregateRule scope st r h :=
      compileAggregateRule_congr fun q ok => same q (mem_plans_iff.mpr ⟨r, hr, h, head, ok⟩)
    simp only [Option.bind_some, compiled]

/-- A statement of a plan says how the predicate is stored. -/
theorem mem_plans (hq : q ∈ plans scope st rules) :
    q.dedicated = st.isDedicated q.pred ∧ q.defaultGraphOnly = decide (scope = .default) := by
  obtain ⟨r, -, h, -, compiled⟩ := mem_plans_iff.mp hq
  exact (compileAggregateRule_eq_ok compiled).2

/-- What is compiled fits the layout that compilation leaves behind. -/
theorem fst_compileAggregates (heads : AggSystem.HeadsFirst st rules) :
    (compileAggregates scope rules st).1 = plans scope
    (compileAggregates scope rules st).2 rules := by
  induction rules generalizing st with
  | nil => rfl
  | cons r rs ih =>
    obtain ⟨first, rest⟩ := List.pairwise_cons.mp heads
    rw [compileAggregates]
    cases head : r.headPred with
    | none =>
      have skipped : plans scope (compileAggregates scope rs st).2 (r :: rs) =
          plans scope (compileAggregates scope rs st).2 rs := by
        simp [plans, head]
      dsimp only
      rw [skipped]
      exact ih rest
    | some h =>
      have later : AggSystem.HeadsFirst (st.ensureHtapTables h) rs := by
        refine rest.imp ?_
        intro r₁ r₂ placed a ha p constant named
        exact isDedicated_ensureHtapTables.mpr (.inl (placed a ha p constant named))
      -- later heads do not move what this rule aggregates
      have same : compileAggregateRule scope
          (compileAggregates scope rs (st.ensureHtapTables h)).2 r h =
            compileAggregateRule scope (st.ensureHtapTables h) r h := by
        refine compileAggregateRule_congr ?_
        intro q compiled
        obtain ⟨⟨a, ha, constant⟩, layout, -⟩ := compileAggregateRule_eq_ok compiled
        rw [layout]
        refine Bool.eq_iff_iff.mpr ?_
        rw [isDedicated_compileAggregates]
        refine or_iff_left_of_imp ?_
        intro named
        obtain ⟨r', hr', head'⟩ := List.mem_filterMap.mp named
        exact isDedicated_ensureHtapTables.mpr (.inl (first r' hr' a ha q.pred constant head'))
      have tail := ih later
      dsimp only
      cases compiled : compileAggregateRule scope (st.ensureHtapTables h) r h with
      | ok q =>
        rw [compiled] at same
        simp only [plans, List.filterMap_cons, head, Option.bind_some, same, Except.toOption]
        rw [tail]
        rfl
      | error e =>
        rw [compiled] at same
        simp only [plans, List.filterMap_cons, head, Option.bind_some, same, Except.toOption]
        exact tail

theorem tidy_compileAggregates (tidy : st.Tidy) : (compileAggregates scope rules st).2.Tidy := by
  induction rules generalizing st with
  | nil => exact tidy
  | cons r rs ih =>
    rw [compileAggregates]
    cases r.headPred with
    | none => exact ih tidy
    | some h =>
      have rest : (compileAggregates scope rs (st.ensureHtapTables h)).2.Tidy :=
        ih tidy.ensureHtapTables
      dsimp only
      split <;> exact rest

/-- The two stores differ in the text of views only. -/
structure SameRows (st st' : Store) : Prop where
  rare : st'.rare = st.rare
  seq : st'.seq = st.seq
  dedicated : ∀ p, st'.isDedicated p = st.isDedicated p
  viewMain : ∀ p, (st'.tables p).viewMain = (st.tables p).viewMain
  delta : ∀ p, (st'.tables p).delta = (st.tables p).delta

theorem SameRows.refl (st : Store) : SameRows st st :=
    ⟨rfl, rfl, fun _ => rfl, fun _ => rfl, fun _ => rfl⟩

theorem SameRows.trans {st'' : Store} (first : SameRows st st') (second : SameRows st' st'') :
    SameRows st st'' where
  rare := second.rare.trans first.rare
  seq := second.seq.trans first.seq
  dedicated p := (second.dedicated p).trans (first.dedicated p)
  viewMain p := (second.viewMain p).trans (first.viewMain p)
  delta p := (second.delta p).trans (first.delta p)

/-- A view that joins the tombstones shows what one that skips them showed. -/
theorem sameRows_ensureHtapTables (tidy : st.Tidy) (dedicated : st.isDedicated h = true) :
    SameRows st (st.ensureHtapTables h) where
  rare := rfl
  seq := rfl
  dedicated p := by
    refine Bool.eq_iff_iff.mpr ?_
    rw [isDedicated_ensureHtapTables]
    refine or_iff_left_of_imp ?_
    intro same
    rw [same, dedicated]
  viewMain p := by
    by_cases same : p = h
    · subst same
      rw [Store.tables_ensureHtapTables]
      simp only [HtapTables.viewMain, HtapTables.mainMinusTombstones, HtapTables.InTombstones]
      cases form : (st.tables p).view with
      | tombstoneAware => rfl
      | tombstoneSkip => simp [tidy.clean p form]
    · rw [Store.onlyAt_ensureHtapTables.tables p same]
  delta p := by
    by_cases same : p = h
    · subst same
      rw [Store.tables_ensureHtapTables]
    · rw [Store.onlyAt_ensureHtapTables.tables p same]

theorem sameRows_compileAggregates (tidy : st.Tidy)
    (dedicated : ∀ h ∈ rules.filterMap Rule.headPred, st.isDedicated h = true) :
    SameRows st (compileAggregates scope rules st).2 := by
  induction rules generalizing st with
  | nil => exact .refl st
  | cons r rs ih =>
    rw [compileAggregates]
    cases head : r.headPred with
    | none =>
      refine ih tidy ?_
      intro h hh
      exact dedicated h (by simpa [head] using hh)
    | some h =>
      have first : SameRows st (st.ensureHtapTables h) :=
        sameRows_ensureHtapTables tidy (dedicated h (by simp [head]))
      have rest : SameRows (st.ensureHtapTables h)
          (compileAggregates scope rs (st.ensureHtapTables h)).2 := by
        refine ih tidy.ensureHtapTables ?_
        intro h' hh'
        rw [first.dedicated]
        refine dedicated h' ?_
        rw [List.filterMap_cons_some head]
        exact List.mem_cons_of_mem h hh'
      dsimp only
      split <;> exact first.trans rest

theorem SameRows.htapView (same : SameRows st st') (p : TermId) :
    (st'.tables p).htapView = (st.tables p).htapView := by
  rw [HtapTables.htapView, HtapTables.htapView, same.viewMain, same.delta]

theorem SameRows.rows (same : SameRows st st') (q : AggStmt) : q.rows agg st' = q.rows agg st := by
  have source : q.source st' = q.source st := by
    rw [AggStmt.source, AggStmt.source, same.htapView, same.rare]
  rw [AggStmt.rows, AggStmt.rows, source]

/-- The same statement inserts the same triples into both. -/
theorem SameRows.exec (same : SameRows st st') (q : AggStmt) :
    (q.exec agg session st').1 = (q.exec agg session st).1 ∧
      SameRows (q.exec agg session st).2 (q.exec agg session st').2 := by
  simp only [AggStmt.exec, same.dedicated, same.rows, same.seq, HtapTables.InDelta, same.delta]
  split
  · refine ⟨rfl, ⟨same.rare, rfl, same.dedicated, ?_, ?_⟩⟩
    · intro p
      by_cases here : p = q.target
      · subst here
        simp only [Store.setTables_tables_self]
        exact same.viewMain q.target
      · simp only [Store.setTables_tables_of_ne here]
        exact same.viewMain p
    · intro p
      by_cases here : p = q.target
      · subst here
        simp only [Store.setTables_tables_self]
      · simp only [Store.setTables_tables_of_ne here]
        exact same.delta p
  · exact ⟨rfl, same⟩

theorem SameRows.execAll (same : SameRows st st') (qs : List AggStmt) :
    (AggStmt.execAll agg session qs st').1 = (AggStmt.execAll agg session qs st).1 := by
  induction qs generalizing st st' with
  | nil => rfl
  | cons q qs ih =>
    have step : (q.exec agg session st').1 = (q.exec agg session st).1 ∧
        SameRows (q.exec agg session st).2 (q.exec agg session st').2 := same.exec q
    simp only [AggStmt.execAll]
    rw [step.1, ih step.2]

theorem isDedicated_exec : (q.exec agg session st).2.isDedicated p = st.isDedicated p := by
  simp only [AggStmt.exec]
  split <;> rfl

theorem tidy_exec (tidy : st.Tidy) : (q.exec agg session st).2.Tidy := by
  simp only [AggStmt.exec]
  split
  · rename_i present
    have used : st.DedicatedAt q.target :=
      tidy.dedicatedAt (Bool.and_eq_true_iff.mp present).1
    have drawn : { st with seq := (st.seq.stamp session (q.rows agg st)).2 }.DedicatedAt q.target :=
      used.of_eq rfl rfl Sequence.lastValue_le_stamp
    have only : Store.OnlyAt q.target st
        { st with seq := (st.seq.stamp session (q.rows agg st)).2 } :=
      .of_eq q.target rfl rfl Sequence.lastValue_le_stamp
    refine tidy.of_onlyAt (only.trans Store.onlyAt_setTables) (.inl (drawn.setDelta _)) ?_
    · rw [Store.setTables_tables_self]
      exact tidy.clean q.target
  · exact tidy

theorem execAll_invariant {inv : Store → Prop}
    (keeps : ∀ (q : AggStmt) (st : Store), inv st → inv (q.exec agg session st).2)
    (qs : List AggStmt) (start : inv st) : inv (AggStmt.execAll agg session qs st).2 := by
  induction qs generalizing st with
  | nil => exact start
  | cons q qs ih => exact ih (keeps q st start)

end Compile

namespace AggSystem

variable {agg : Aggregation} {sys sys' : AggSystem} {event : AggEvent} {env : Environment}
  {enabled : Bool} {session : Session} {ruleSet : String} {st : Store} {report : Report}
    {p : TermId}

theorem isFor_of_isFor {session' : Session} {ruleSet' : String} {e : AggEntry}
    (other : ¬ (session' = session ∧ ruleSet' = ruleSet))
    (mine : e.isFor session' ruleSet' = true) :
    e.isFor session ruleSet = false := by
  simp only [AggEntry.isFor, Bool.and_eq_true, decide_eq_true_eq] at mine
  obtain ⟨rfl, rfl⟩ := mine
  simpa [AggEntry.isFor] using other

theorem cached_invalidate {session' : Session} {ruleSet' : String} :
    (sys.invalidate session ruleSet).cached session' ruleSet' =
      if session' = session ∧ ruleSet' = ruleSet then [] else sys.cached session' ruleSet' := by
  have found : (sys.invalidate session ruleSet).aggCache.find? (AggEntry.isFor session' ruleSet') =
      if session' = session ∧ ruleSet' = ruleSet then none
      else sys.aggCache.find? (AggEntry.isFor session' ruleSet') := by
    rw [invalidate]
    by_cases same : session' = session ∧ ruleSet' = ruleSet
    · obtain ⟨rfl, rfl⟩ := same
      rw [if_pos ⟨rfl, rfl⟩]
      refine List.find?_eq_none.mpr ?_
      intro e he
      simpa using (List.mem_filter.mp he).2
    · rw [if_neg same, List.find?_filter]
      congr 1
      funext e
      cases mine : e.isFor session' ruleSet' with
      | false => simp
      | true => simp [isFor_of_isFor same mine]
  rw [cached, found]
  split <;> rfl

theorem cached_setCache {stmts : List AggStmt} {session' : Session} {ruleSet' : String} :
    (sys.setCache session ruleSet stmts).cached session' ruleSet' =
      if session' = session ∧ ruleSet' = ruleSet then stmts else sys.cached session' ruleSet' := by
  by_cases same : session' = session ∧ ruleSet' = ruleSet
  · obtain ⟨rfl, rfl⟩ := same
    simp [cached, setCache, AggEntry.isFor]
  · have other : AggEntry.isFor session' ruleSet' ⟨session, ruleSet, stmts⟩ = false := by
      refine Bool.eq_false_iff.mpr ?_
      intro mine
      have mine' : session = session' ∧ ruleSet = ruleSet' := by simpa [AggEntry.isFor] using mine
      exact same ⟨mine'.1.symm, mine'.2.symm⟩
    have kept : (sys.invalidate session ruleSet).cached session' ruleSet' =
        sys.cached session' ruleSet' := cached_invalidate.trans (if_neg same)
    rw [if_neg same, cached, setCache, List.find?_cons, other]
    exact kept

theorem mem_cached {q : AggStmt} (hq : q ∈ sys.cached session ruleSet) :
    ∃ e ∈ sys.aggCache, e.session = session ∧ e.ruleSet = ruleSet ∧ q ∈ e.stmts := by
  rw [cached] at hq
  cases found : sys.aggCache.find? (AggEntry.isFor session ruleSet) with
  | none => simp [found] at hq
  | some e =>
    have here : e.session = session ∧ e.ruleSet = ruleSet := by
      simpa [AggEntry.isFor] using List.find?_some found
    exact ⟨e, List.mem_of_find?_eq_some found, here.1, here.2, by simpa [found] using hq⟩

theorem readRare_of_cached {q : AggStmt} (hq : q ∈ sys.cached session ruleSet)
    (rare : q.dedicated = false) : sys.ReadRare q.pred := by
  obtain ⟨e, he, -, -, hq⟩ := mem_cached hq
  exact ⟨e, he, q, hq, rfl, rare⟩

/-- Every cached plan is the plan for the present rules and the present layout. -/
structure Coherent (sys : AggSystem) : Prop where
  tidy : sys.store.Tidy
  fresh : ∀ session ruleSet, sys.cached session ruleSet ≠ [] →
    ∃ scope, sys.cached session ruleSet = plans scope sys.store (sys.aggRules ruleSet)
  heads : ∀ session ruleSet, sys.cached session ruleSet ≠ [] →
    ∀ h ∈ (sys.aggRules ruleSet).filterMap Rule.headPred, sys.store.isDedicated h = true

/-- A statement shows which scope it was compiled with. -/
theorem GraphScope.eq_of_isDefault {a b : GraphScope}
    (same : decide (a = .default) = decide (b = .default)) : a = b := by
  cases a <;> cases b <;> first | rfl | cases same

/-- The rules without aggregates leave tables and layout alone. -/
theorem tidy_inferNormal (tidy : sys.store.Tidy)
    (ran : sys.inferNormal env session ruleSet = some (report, st)) :
    st.Tidy ∧ ∀ p, st.isDedicated p = sys.store.isDedicated p := by
  simp only [inferNormal] at ran
  split at ran
  · cases ran
    exact ⟨tidy, fun _ => rfl⟩
  · simp only [runSeminaiveInner] at ran
    split at ran
    · cases ran
      exact ⟨tidy, fun _ => rfl⟩
    · obtain ⟨found, -, ran⟩ := Option.bind_eq_some_iff.mp ran
      cases ran
      exact ⟨tidy_materialise tidy, fun _ => isDedicated_materialise⟩

theorem lookupAgg_eq_some {stmts : List AggStmt}
    (hit : sys.lookupAgg enabled session ruleSet = some stmts) :
    stmts = sys.cached session ruleSet ∧ sys.cached session ruleSet ≠ [] := by
  rw [lookupAgg] at hit
  split at hit
  · rename_i nonempty
    cases hit
    refine ⟨rfl, ?_⟩
    intro empty
    simp [empty] at nonempty
  · cases hit

/-- Coherent plans are what compilation would return, and so insert the same triples. -/
theorem Coherent.transparent (h : sys.Coherent) (keeps : sys.KeepsPlans event) :
    sys.Transparent agg event := by
  cases event with
  | inferAgg env enabled session ruleSet =>
    intro _ report st ran stmts hit
    obtain ⟨rfl, nonempty⟩ := lookupAgg_eq_some hit
    obtain ⟨tidy, layout⟩ := tidy_inferNormal h.tidy ran
    obtain ⟨scope, fresh⟩ := h.fresh session ruleSet nonempty
    have dedicated (p : TermId) (hp : p ∈ (sys.aggRules ruleSet).filterMap Rule.headPred) :
        st.isDedicated p = true := by
      rw [layout]
      exact h.heads session ruleSet nonempty p hp
    -- the plans were compiled with the present scope
    have sameScope : scope = env.settings.ruleGraphScope := by
      obtain ⟨q, hq⟩ := List.exists_mem_of_ne_nil _ nonempty
      have now := keeps.2.1 q hq
      rw [fresh] at hq
      rw [(mem_plans hq).2] at now
      exact GraphScope.eq_of_isDefault now
    have heads : HeadsFirst st (sys.aggRules ruleSet) := by
      refine List.pairwise_of_forall_mem_list ?_
      intro r _ r' hr' a _ p _ head
      exact dedicated p (List.mem_filterMap.mpr ⟨r', hr', head⟩)
    have same : SameRows st (compileAggregates env.settings.ruleGraphScope
        (sys.aggRules ruleSet) st).2 := sameRows_compileAggregates tidy dedicated
    have compiled : (compileAggregates env.settings.ruleGraphScope (sys.aggRules ruleSet) st).1 =
        sys.cached session ruleSet := by
      rw [fst_compileAggregates heads, fresh, sameScope]
      refine plans_congr ?_
      intro q hq
      rw [same.dedicated, layout, (mem_plans hq).1]
    dsimp only
    rw [compiled]
    exact (same.execAll _).symm
  | _ => trivial

/-- What `infer_agg` leaves behind, in the three ways it can go. -/
theorem runInferenceAgg_cases
    (ran : (sys.runInferenceAgg agg env enabled session ruleSet).map Prod.snd = some sys') :
    ∃ report st, sys.inferNormal env session ruleSet = some (report, st) ∧
      ((sys.compiles enabled session ruleSet = false ∧
        ∃ stmts, sys' = { sys with store := (AggStmt.execAll agg session stmts st).2 }) ∨
      (sys.compiles enabled session ruleSet = true ∧
        let fresh := compileAggregates env.settings.ruleGraphScope (sys.aggRules ruleSet) st
        sys' = { sys.storeAgg enabled session ruleSet fresh.1 with
          store := (AggStmt.execAll agg session fresh.1 fresh.2).2 })) := by
  obtain ⟨result, inferred, rfl⟩ := Option.map_eq_some_iff.mp ran
  obtain ⟨⟨report, st⟩, normal, ran⟩ := Option.bind_eq_some_iff.mp inferred
  refine ⟨report, st, normal, ?_⟩
  dsimp only at ran
  cases skips : sys.skipsAggregates ruleSet with
  | true =>
    simp only [skips, if_true] at ran
    cases ran
    exact .inl ⟨by simp [compiles, skips], [], rfl⟩
  | false =>
    simp only [skips, Bool.false_eq_true, if_false] at ran
    cases hit : sys.lookupAgg enabled session ruleSet with
    | some stmts =>
      simp only [hit] at ran
      cases ran
      exact .inl ⟨by simp [compiles, skips, hit], stmts, rfl⟩
    | none =>
      simp only [hit] at ran
      cases ran
      refine .inr ⟨by simp [compiles, skips, hit], ?_⟩
      simp only [storeAgg]
      split <;> rfl

theorem isDedicated_eq_of_iff {a b : Bool} {P : Prop} (grows : a = true ↔ b = true ∨ P)
    (no : ¬ P) : a = b := Bool.eq_iff_iff.mpr (grows.trans (or_iff_left no))

theorem isDedicated_promotePredicate (tidy : st.Tidy) {p' : TermId} :
    (st.promotePredicate p).isDedicated p' = true ↔ st.isDedicated p' = true ∨ p' ∈ [p] := by
  rw [List.mem_singleton]
  by_cases same : p' = p
  · rw [same]
    exact iff_of_true (Store.dedicatedAt_promotePredicate (tidy.predicate p)).dedicated (.inr rfl)
  · rw [Store.onlyAt_promotePredicate.isDedicated same]
    exact (or_iff_left same).symm

theorem isDedicated_insertIntoVpRare (tidy : st.Tidy) {q : Quad}
    (hq : st.isDedicated q.p = false) :
    (Store.insertIntoVpRare session q st).2.isDedicated p = st.isDedicated p := by
  by_cases same : p = q.p
  · rw [same, hq]
    exact (tidy.unusedAt hq).insertIntoVpRare.dedicated
  · exact Store.onlyAt_insertIntoVpRare.isDedicated same

/-- Only an insert that reaches the threshold gives tables to its predicate. -/
theorem isDedicated_insertTriple (tidy : st.Tidy) {cfg : Config} {q : Quad} :
    (Store.insertTriple cfg session q st).2.isDedicated p = true ↔
      st.isDedicated p = true ∨
        p ∈ if !st.isDedicated q.p && decide (cfg.vpPromotionThreshold ≤
          (Store.insertIntoVpRare session q st).2.tripleCount q.p) then [q.p] else [] := by
  rw [Store.insertTriple]
  cases dedicated : st.isDedicated q.p with
  | true =>
    simp only [if_true, Store.isDedicated_insertIntoDelta]
    simp
  | false =>
    have rare : (Store.insertIntoVpRare session q st).2.Tidy := tidy.insertIntoVpRare dedicated
    have layout : (Store.insertIntoVpRare session q st).2.isDedicated p = st.isDedicated p :=
      isDedicated_insertIntoVpRare tidy dedicated
    by_cases reached : cfg.vpPromotionThreshold ≤
        (Store.insertIntoVpRare session q st).2.tripleCount q.p
    · simp only [Bool.false_eq_true, if_false, reached, if_true, isDedicated_promotePredicate rare,
        layout, decide_true, Bool.not_false, Bool.and_self]
    · simp only [Bool.false_eq_true, if_false, reached, layout, decide_false, Bool.and_false,
        List.not_mem_nil, or_false]

theorem isDedicated_deleteTriple {q : Quad} :
    (Store.deleteTriple session q st).2.isDedicated p = st.isDedicated p := by
  rw [Store.isDedicated_eq_tableOid, Store.isDedicated_eq_tableOid, Store.deleteTriple,
    Store.tableOid_deleteQuad]

theorem isDedicated_mergePredicate (tidy : st.Tidy) {cfg : Config} {p' : TermId} :
    (Store.mergePredicate cfg p st).2.isDedicated p' = st.isDedicated p' := by
  cases tidy.predicate p with
  | inl used =>
    by_cases same : p' = p
    · rw [same, used.dedicated]
      exact used.mergePredicate.dedicated
    · exact Store.onlyAt_mergePredicate.isDedicated same
  | inr unused => rw [unused.mergePredicate_eq]

/-- The store may change as long as no predicate that a plan reads from `vp_rare` alone
gets tables. -/
theorem Coherent.setStore (h : sys.Coherent) {given : List TermId} (tidy : st.Tidy)
    (layout : ∀ p, st.isDedicated p = true ↔ sys.store.isDedicated p = true ∨ p ∈ given)
    (unread : ∀ p ∈ given, ¬ sys.ReadRare p) : Coherent { sys with store := st } where
  tidy := tidy
  fresh session ruleSet nonempty := by
    obtain ⟨scope, fresh⟩ := h.fresh session ruleSet nonempty
    refine ⟨scope, fresh.trans (plans_congr ?_).symm⟩
    intro q hq
    have stored := (mem_plans hq).1
    rw [← fresh] at hq
    cases dedicated : q.dedicated with
    | true =>
      rw [dedicated] at stored
      exact (layout q.pred).mpr (.inl stored.symm)
    | false =>
      have kept : ¬ q.pred ∈ given := fun gets =>
        unread q.pred gets (readRare_of_cached hq dedicated)
      rw [isDedicated_eq_of_iff (layout q.pred) kept, ← stored, dedicated]
  heads session ruleSet nonempty p hp := (layout p).mpr
    (.inl (h.heads session ruleSet nonempty p hp))

/-- A plan that has just been compiled may be cached. -/
theorem Coherent.setCache (h : sys.Coherent) {stmts : List AggStmt} (scope : GraphScope)
    (fresh : stmts = plans scope sys.store (sys.aggRules ruleSet))
    (heads : ∀ p ∈ (sys.aggRules ruleSet).filterMap Rule.headPred, sys.store.isDedicated p = true) :
    (sys.setCache session ruleSet stmts).Coherent where
  tidy := h.tidy
  fresh session' ruleSet' nonempty := by
    rw [cached_setCache] at nonempty ⊢
    split at nonempty
    · rename_i same
      rw [if_pos same, same.2]
      exact ⟨scope, fresh⟩
    · rename_i other
      rw [if_neg other]
      exact h.fresh session' ruleSet' nonempty
  heads session' ruleSet' nonempty := by
    rw [cached_setCache] at nonempty
    split at nonempty
    · rename_i same
      rw [same.2]
      exact heads
    · exact h.heads session' ruleSet' nonempty

/-- Rules may change when nobody has a plan of theirs. -/
theorem Coherent.setRules (h : sys.Coherent) {rules : List Rule}
    (others : ∀ e ∈ sys.aggCache, e.ruleSet = ruleSet → e.session ≠ session → e.stmts = []) :
    ((sys.invalidate session ruleSet).setRules ruleSet rules).Coherent := by
  have cached {session' : Session} {ruleSet' : String}
      (nonempty : (sys.invalidate session ruleSet).cached session' ruleSet' ≠ []) :
      ruleSet' ≠ ruleSet ∧ sys.cached session' ruleSet' ≠ [] ∧
        (sys.invalidate session ruleSet).cached session' ruleSet' =
          sys.cached session' ruleSet' := by
    rw [cached_invalidate] at nonempty ⊢
    by_cases same : session' = session ∧ ruleSet' = ruleSet
    · rw [if_pos same] at nonempty
      exact absurd rfl nonempty
    · rw [if_neg same] at nonempty ⊢
      refine ⟨?_, nonempty, rfl⟩
      intro set
      subst set
      obtain ⟨q, hq⟩ := List.exists_mem_of_ne_nil _ nonempty
      obtain ⟨e, he, rfl, rfl, stored⟩ := mem_cached hq
      rw [others e he rfl fun here => same ⟨here, rfl⟩] at stored
      cases stored
  have rulesOf {ruleSet' : String} (other : ruleSet' ≠ ruleSet) :
      ((sys.invalidate session ruleSet).setRules ruleSet rules).aggRules ruleSet' =
        sys.aggRules ruleSet' := by
    simp only [aggRules, AggSystem.setRules, Function.update_of_ne other]
    rfl
  refine ⟨h.tidy, ?_, ?_⟩
  · intro session' ruleSet' nonempty
    obtain ⟨other, before, same⟩ := cached nonempty
    rw [rulesOf other]
    exact same ▸ h.fresh session' ruleSet' before
  · intro session' ruleSet' nonempty
    obtain ⟨other, before, -⟩ := cached nonempty
    rw [rulesOf other]
    exact h.heads session' ruleSet' before

theorem tidy_execAll (tidy : st.Tidy) (stmts : List AggStmt) :
    (AggStmt.execAll agg session stmts st).2.Tidy :=
  execAll_invariant (fun _ _ tidy => tidy_exec tidy) stmts tidy

theorem isDedicated_execAll (stmts : List AggStmt) :
    (AggStmt.execAll agg session stmts st).2.isDedicated p = st.isDedicated p :=
  @execAll_invariant st agg session (fun st' => st'.isDedicated p = st.isDedicated p)
    (fun _ _ same => isDedicated_exec.trans same) stmts rfl

theorem Coherent.inferAgg (h : sys.Coherent)
    (keeps : sys.KeepsPlans (.inferAgg env enabled session ruleSet))
    (ran : (sys.runInferenceAgg agg env enabled session ruleSet).map Prod.snd = some sys') :
    sys'.Coherent := by
  obtain ⟨report, st, normal, result⟩ := runInferenceAgg_cases ran
  obtain ⟨tidy, layout⟩ := tidy_inferNormal h.tidy normal
  cases result with
  | inl cached =>
    obtain ⟨-, stmts, rfl⟩ := cached
    have kept (p : TermId) : (AggStmt.execAll agg session stmts st).2.isDedicated p = true ↔
        sys.store.isDedicated p = true ∨ p ∈ ([] : List TermId) := by
      rw [isDedicated_execAll, layout]
      exact (or_iff_left List.not_mem_nil).symm
    exact h.setStore (tidy_execAll tidy stmts) kept fun p hp => absurd hp List.not_mem_nil
  | inr compiled =>
    obtain ⟨compiles, rfl⟩ := compiled
    have given : sys.givesTables (.inferAgg env enabled session ruleSet) =
        (sys.aggRules ruleSet).filterMap Rule.headPred := if_pos compiles
    have unread := keeps.1
    rw [given] at unread
    have grown (p : TermId) :
        (AggStmt.execAll agg session (compileAggregates env.settings.ruleGraphScope
          (sys.aggRules ruleSet) st).1 (compileAggregates env.settings.ruleGraphScope
          (sys.aggRules ruleSet) st).2).2.isDedicated p = true ↔
        sys.store.isDedicated p = true ∨ p ∈ (sys.aggRules ruleSet).filterMap Rule.headPred := by
      rw [isDedicated_execAll, isDedicated_compileAggregates, layout]
    have stored := h.setStore (tidy_execAll (tidy_compileAggregates tidy) _) grown unread
    cases enabled with
    | false => exact stored
    | true =>
      have heads : HeadsFirst st (sys.aggRules ruleSet) := by
        refine (keeps.2.2 compiles).imp ?_
        intro r r' placed a ha p constant head
        rw [layout]
        exact placed a ha p constant head
      refine stored.setCache env.settings.ruleGraphScope ?_ fun p hp => (grown p).mpr (.inr hp)
      rw [fst_compileAggregates heads]
      refine (plans_congr ?_).symm
      intro q hq
      rw [isDedicated_execAll, (mem_plans hq).1]

theorem Coherent.step (h : sys.Coherent) (keeps : sys.KeepsPlans event)
    (stepped : sys.step agg event = some sys') : sys'.Coherent := by
  cases event with
  | loadRules session ruleSet rules =>
    cases stepped
    exact h.setRules (keeps.2)
  | dropRules session ruleSet =>
    cases stepped
    exact h.setRules (keeps.2)
  | inferAgg env enabled session ruleSet => exact h.inferAgg keeps stepped
  | insertTriple cfg session q =>
    cases stepped
    exact h.setStore h.tidy.insertTriple (fun _ => isDedicated_insertTriple h.tidy) keeps.1
  | deleteTriple session q =>
    cases stepped
    refine h.setStore h.tidy.deleteQuad ?_ keeps.1
    intro p
    rw [isDedicated_deleteTriple]
    exact (or_iff_left List.not_mem_nil).symm
  | promotePredicate p =>
    cases stepped
    exact h.setStore h.tidy.promotePredicate (fun _ => isDedicated_promotePredicate h.tidy) keeps.1
  | mergePredicate cfg p =>
    cases stepped
    refine h.setStore h.tidy.mergePredicate ?_ keeps.1
    intro p'
    rw [isDedicated_mergePredicate h.tidy]
    exact (or_iff_left List.not_mem_nil).symm

theorem coherent_initial : initial.Coherent where
  tidy := Store.tidy_initial
  fresh _ _ nonempty := absurd rfl nonempty
  heads _ _ nonempty := absurd rfl nonempty

/-- In every run whose events leave cached plans valid, `infer_agg` inserts with cached
statements what it would insert with freshly compiled ones. -/
theorem aggCache_transparent {events : List AggEvent}
    (valid : Run.Along (step agg) KeepsPlans initial events) :
    Run.Along (step agg) (Transparent agg) initial events :=
  Run.along_of_invariant (fun _ _ _ h keeps stepped => Coherent.step h keeps stepped)
    (fun _ _ h keeps => Coherent.transparent h keeps) coherent_initial valid

/-- `?x <12> ?n :- COUNT(?y WHERE ?x <11> ?y) = ?n .` -/
def countRule : Rule where
  head := some ⟨.var "x", .const 12, .var "n", .defaultGraph⟩
  body := [.aggregate ⟨.count, "y", ⟨.var "x", .const 11, .var "y", .defaultGraph⟩, "n"⟩]
  ruleText := "?x <12> ?n :- COUNT(?y WHERE ?x <11> ?y) = ?n ."

/-- Ids of plain literals, for `COUNT` only. -/
def countIds : Aggregation := fun _ ids => 1000 + ids.length

/-- The counted predicate has its tables from the beginning. -/
def countedEarly : List AggEvent := [
  .insertTriple ⟨10000, true, 3600⟩ 0 ⟨101, 11, 102, 0⟩,
  .promotePredicate 11,
  .loadRules 0 "counts" [countRule],
  .inferAgg .bare true 0 "counts",
  .insertTriple ⟨10000, true, 3600⟩ 1 ⟨101, 11, 103, 0⟩,
  .inferAgg .bare true 0 "counts"]

theorem aggCache_transparent_countedEarly :
    Run.Along (step countIds) (Transparent countIds) initial countedEarly :=
  aggCache_transparent (by decide)

/-- The counted predicate gets its tables after the rule was compiled. -/
theorem not_aggCache_transparent :
    ¬ ∀ (agg : Aggregation) (events : List AggEvent),
      Run.Along (step agg) (Transparent agg) initial events := by
  intro promised
  have different : (Run.exec (step countIds) initial [
      .insertTriple ⟨10000, true, 3600⟩ 0 ⟨101, 11, 102, 0⟩,
      .loadRules 0 "counts" [countRule],
      .inferAgg .bare true 0 "counts",
      .promotePredicate 11,
      .insertTriple ⟨10000, true, 3600⟩ 0 ⟨101, 11, 103, 0⟩]).any (fun sys =>
        decide (sys.skipsAggregates "counts" = false) &&
        (sys.inferNormal .bare 0 "counts").any fun x =>
          (sys.lookupAgg true 0 "counts").any fun stmts =>
            let fresh := compileAggregates .all (sys.aggRules "counts") x.2
            decide ((AggStmt.execAll countIds 0 stmts x.2).1 ≠
              (AggStmt.execAll countIds 0 fresh.1 fresh.2).1)) = true := by
    decide
  obtain ⟨sys, executed, final⟩ := (Option.any_eq_true _ _).mp different
  obtain ⟨reached, final⟩ := Bool.and_eq_true_iff.mp final
  obtain ⟨⟨report, st⟩, normal, final⟩ := (Option.any_eq_true _ _).mp final
  obtain ⟨stmts, hit, final⟩ := (Option.any_eq_true _ _).mp final
  have transparent := (promised countIds (_ ++ [.inferAgg .bare true 0 "counts"])).guard_of_append
    executed
  exact of_decide_eq_true final
    (transparent (of_decide_eq_true reached) report st normal stmts hit)

end AggSystem

end PgRipple.Datalog
