import PgRipple.Lib.Engine
import PgRipple.Storage.Ops
import PgRipple.Datalog.Rewrite

/-!
# Semi-naive evaluation

All drivers share one loop. The seed statements fill temporary tables of derived
triples, one per head predicate; then each round runs every delta variant on these
tables and merges what is new, until a round adds nothing or the limit is reached.
The stored triples are not touched before the end, when the derived ones are
inserted into `vp_rare`.

The temporary tables are kept as one list of quads. Their unique constraint is the
`dedup` of each batch.
-/

namespace PgRipple.Datalog

open Storage

/-- The installation that a driver runs in. -/
structure Environment where
  ext : External
  settings : Settings

/-- `vp_read_expr`: the view of a dedicated predicate and its rows in `vp_rare`. -/
def vpReadExpr (st : Store) (p : TermId) : List Key :=
  (if st.isDedicated p then (st.tables p).htapView.map Row.key else []) ++
    (st.rare.rows.filter fun r => r.quad.p = p).map fun r => r.quad.key

/-- Reading a predicate gives its visible triples. -/
@[simp] theorem mem_vpReadExpr {st : Store} {p : TermId} {k : Key} :
    k ∈ vpReadExpr st p ↔ st.Visible (k.quad p) := by
  have rare : k ∈ (st.rare.rows.filter fun r => r.quad.p = p).map (fun r => r.quad.key) ↔
      st.rare.HasKey (k.quad p) := by
    simp only [List.mem_map, List.mem_filter, decide_eq_true_eq, UniqueTable.hasKey_iff]
    constructor
    · rintro ⟨r, ⟨hr, rfl⟩, rfl⟩
      exact ⟨r, hr, rfl⟩
    · intro ⟨r, hr, same⟩
      exact ⟨r, ⟨hr, congrArg Quad.p same⟩, congrArg Quad.key same⟩
  rw [vpReadExpr, List.mem_append, rare, Store.Visible, Key.quad_p, Key.quad_key]
  by_cases dedicated : st.isDedicated p = true
  · simp [dedicated, HtapTables.Shows]
  · simp [dedicated]

/-- What the compiler sees of a store. -/
def Environment.context (env : Environment) (st : Store) : Context where
  ext := env.ext
  stored := vpReadExpr st
  tripleCount := st.tripleCount
  settings := env.settings

/-- The seed statements; a rule that does not compile is skipped. -/
def seedStmts (ctx : Context) (rules : List Rule) : List (TermId × Stmt) :=
  rules.filterMap fun r => (compileSingleRuleTo ctx r).toOption

/-- The delta variants. -/
def variantStmts (ctx : Context) (derived : List TermId) (rules : List Rule) :
    List (TermId × Stmt) :=
  rules.flatMap fun r =>
    ((compileRuleDeltaVariantsTo ctx r derived).toOption.getD []).map fun (p, q) => (p, .select q)

/-- Run statements, collecting their rows under the predicate they derive. -/
def runStmts (ctx : Context) (delta : List Quad) : List (TermId × Stmt) → Option (List Quad)
  | [] => some []
  | (p, stmt) :: rest => do
    let rows ← stmt.exec ctx.toDatabase delta
    let more ← runStmts ctx delta rest
    return rows.map (Key.quad · p) ++ more

/-- The loop: seeds, then at most `rounds` rounds. Also the number of iterations,
where the seeds count as the first. -/
def evaluate (ctx : Context) (seeds variants : List (TermId × Stmt)) (rounds : Nat) :
    Option (List Quad × Nat) := do
  let start ← runStmts ctx [] seeds
  Engine.saturate (fun delta => (runStmts ctx delta variants).map List.dedup) rounds 1 start.dedup

/-- `max_iterations`; the seeds take one of them. -/
def maxIterations : Nat := 10000

/-- `evaluate` on a rule set, up to `max_iterations`. -/
def evaluateRules (ctx : Context) (derived : List TermId) (rules : List Rule) :
    Option (List Quad × Nat) :=
  evaluate ctx (seedStmts ctx rules) (variantStmts ctx derived rules) (maxIterations - 1)

/-- Insert the derived triples of one predicate into `vp_rare`, and count the new
ones in the catalog. -/
def materialisePred (session : Session) (found : List Quad) (acc : Int × Store) (p : TermId) :
    Int × Store :=
  let (total, st) := acc
  let quads := found.filter fun q => q.p = p
  let (stamped, seq) := st.seq.stamp session quads
  let cnt : Int := (quads.filter fun q => ¬ st.rare.HasKey q).length
  let st := { st with
    seq := seq, rare := st.rare.insertAll (stamped.map fun (q, i) => (⟨q, i, 0⟩ : RareRow)) }
  (total + cnt, if 0 < cnt then st.upsertRarePredicate p cnt else st)

/-- Insert all derived triples; the number of new ones. -/
def materialise (session : Session) (derived : List TermId) (found : List Quad) (st : Store) :
    Int × Store :=
  derived.foldl (materialisePred session found) (0, st)

/-- What a driver returns: the number of derived triples and of iterations. -/
structure Report where
  totalDerived : Int
  iterationCount : Nat
  deriving DecidableEq, Repr

/-- `run_seminaive_inner`. -/
def runSeminaiveInner (env : Environment) (session : Session) (rules : List Rule) (st : Store) :
    Option (Report × Store) :=
  let derived := derivedPredIds rules
  if derived.isEmpty then some (⟨0, 0⟩, st)
  else do
    let (found, iterations) ← evaluateRules (env.context st) derived rules
    let (total, st) := materialise session derived found st
    return (⟨total, iterations⟩, st)

/-- `run_inference_seminaive`, on the active rules of the rule set in catalog order. -/
def runInferenceSeminaive (env : Environment) (session : Session) (rules : List Rule)
    (st : Store) : Option (Report × Store) :=
  if rules.isEmpty then some (⟨0, 0⟩, st)
  else do
    let ctx := env.context st
    let allRules := canonicalRules ctx rules
    let derived := derivedPredIds allRules
    let (found, iterations) ← evaluateRules ctx derived (activeRules allRules)
    let (total, st) := materialise session derived found st
    return (⟨total, iterations⟩, st)

/-- An installation with default settings and nothing besides its triples. -/
def Environment.bare : Environment where
  ext := {
    isTemporalPredicate := fun _ => false
    temporalReadExprFiltered := fun _ _ => []
    sequential := fun _ _ => false
    stringBuiltin := fun _ => false
    lookupIri := fun _ => none
    owlSameAs := 1 }
  settings := {}

/-- A store into which these triples have been loaded. -/
def loaded (quads : List Quad) : Store :=
  quads.foldl (fun st q => (Store.insertEncodedTriple 0 q st).2) Store.initial

end PgRipple.Datalog
