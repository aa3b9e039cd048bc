import Mathlib.Data.List.Sections
import PgRipple.Datalog.Syntax

/-!
# The SQL that rules compile to

A compiled rule is an `INSERT … SELECT` of one of two shapes. `Query` is a join of
aliased tables under a conjunction of conditions; `RecQuery` is the
`WITH RECURSIVE … CYCLE` statement that a recursive rule is seeded with. This
module gives both their meaning as lists of `(s, o, g)` rows.

`NULL` is `none`, and a condition keeps a row only if it is true. A statement that
PostgreSQL rejects (a malformed `FROM` clause, an unknown column, a `NULL` for a
`NOT NULL` column, a selected number out of the range of `bigint`) raises an error
that aborts the surrounding call; executing it gives `none`.

Conditions are compiled before assignments, so they have no arithmetic in them.
-/

namespace PgRipple.Datalog

open Storage

/-- A column of a triple table. -/
inductive Col where
  | s | o | g
  deriving DecidableEq, Repr

/-- The value of a column. -/
def Col.of : Col → Key → Int
  | .s, k => k.s
  | .o, k => k.o
  | .g, k => k.g

/-- Expressions over the aliases `t0`, `t1`, … of a query. -/
inductive Expr where
  /-- Column `c` of alias `t`. -/
  | col (t : Nat) (c : Col)
  | const (id : TermId)
  | null
  /-- `(l op r)`. -/
  | arith (op : ArithOp) (l r : Expr)
  deriving DecidableEq, Repr

/-- The value of an expression for one row per alias. -/
def Expr.eval (env : List Key) : Expr → Option Int
  | .col t c => env[t]?.map c.of
  | .const id => some id
  | .null => none
  | .arith op l r => do op.applyBigint (← l.eval env) (← r.eval env)

/-- A condition of a `WHERE` or `ON` clause. -/
inductive Cond where
  | compare (l : Expr) (op : CompareOp) (r : Expr)
  | builtin (b : StringBuiltin Expr)
  /-- `NOT EXISTS (SELECT 1 FROM vp_p WHERE s = … AND o = …)`. -/
  | notExists (p : TermId) (s o : Option Expr)
  /-- `LEFT JOIN vp_p aj ON aj.s = … AND aj.o = …` with `aj.s IS NULL`. -/
  | antiJoin (p : TermId) (s o : Option Expr)
  /-- The `EXISTS` subquery of a sequential temporal filter. -/
  | sequential (f : TemporalFilter) (args : List (Option Expr))
  deriving DecidableEq, Repr

/-- `l = r`. -/
def Cond.eq (l r : Expr) : Cond := .compare l .eq r

/-- What an alias ranges over. -/
inductive Source where
  /-- `vp_read_expr(p)`. -/
  | stored (p : TermId)
  /-- The temporary table of derived triples of `p`. -/
  | delta (p : TermId)
  /-- `temporal_read_expr_filtered(p, …)`. -/
  | temporal (p : TermId) (filters : List TemporalFilter)
  deriving DecidableEq, Repr

/-- One `FROM` item: the first stands alone, the others are `JOIN … ON …`. -/
structure FromItem where
  source : Source
  on : List Cond
  deriving DecidableEq, Repr

/-- `SELECT s, o, g FROM … WHERE …`. The graph column is a literal; a variable in
the head's graph position refers to a column that does not exist. -/
structure Query where
  from_ : List FromItem
  where_ : List Cond
  s : Expr
  o : Expr
  g : Option TermId
  deriving DecidableEq, Repr

/-- The recursive statement: rows of the base predicates, extended on the left by
rows of `stepPred`. -/
structure RecQuery where
  bases : List TermId
  /-- `WHERE g = 0` on the base rows. -/
  defaultGraphOnly : Bool
  stepPred : TermId
  /-- The head has a graph variable: join and detect cycles on `g` too. -/
  joinGraph : Bool
  /-- `datalog_max_depth`; `0` is unlimited. -/
  maxDepth : Int
  /-- Constants of the head, which replace the computed columns. -/
  s : Option TermId
  o : Option TermId
  /-- Conditions on the computed row besides `NOT is_cycle`. -/
  where_ : List Cond
  deriving DecidableEq, Repr

/-- A compiled rule. -/
inductive Stmt where
  | select (q : Query)
  | recursive (q : RecQuery)
  deriving DecidableEq, Repr

/-- What rule evaluation consults besides the triple tables. -/
structure External where
  /-- `temporal::is_temporal_predicate`. -/
  isTemporalPredicate : TermId → Bool
  /-- The rows of `temporal_read_expr_filtered`. -/
  temporalReadExprFiltered : TermId → List TemporalFilter → List Key
  /-- A sequential filter, given its resolved arguments. -/
  sequential : TemporalFilter → List (Option (Option Int)) → Bool
  /-- A string built-in on non-`NULL` arguments. -/
  stringBuiltin : StringBuiltin Int → Bool
  /-- `dictionary::lookup_iri`. -/
  lookupIri : String → Option TermId
  /-- The id of `http://www.w3.org/2002/07/owl#sameAs`. -/
  owlSameAs : TermId

/-- The tables that a statement reads. -/
structure Database where
  ext : External
  /-- The rows of `vp_read_expr(p)`. -/
  stored : TermId → List Key
  /-- `estimate_pred_cardinality`. -/
  tripleCount : TermId → Int

namespace Database

variable (db : Database)

/-- The rows an alias ranges over; `delta` holds all temporary tables. -/
def rows (delta : List Quad) : Source → List Key
  | .stored p => db.stored p
  | .delta p => (delta.filter fun q => q.p = p).map Quad.key
  | .temporal p filters => db.ext.temporalReadExprFiltered p filters

/-- Some stored triple of `p` has these columns, where given. -/
def existsRow (env : List Key) (p : TermId) (s o : Option Expr) : Bool :=
  (db.stored p).any fun k =>
    (s.all fun e => e.eval env = some k.s) && (o.all fun e => e.eval env = some k.o)

/-- A condition is true of one row per alias. -/
def holds (env : List Key) : Cond → Bool
  | .compare l op r =>
    match l.eval env, r.eval env with
    | some x, some y => op.test x y
    | _, _ => false
  | .builtin b => (b.traverse (Expr.eval env)).any db.ext.stringBuiltin
  | .notExists p s o => !db.existsRow env p s o
  | .antiJoin p s o => !db.existsRow env p s o
  | .sequential f args => db.ext.sequential f (args.map fun a => a.map (Expr.eval env))

end Database

namespace Query

/-- PostgreSQL accepts the statement: there is a `FROM` item, every further one has
an `ON` clause, and the graph column exists. -/
def wellFormed (q : Query) : Bool :=
  !q.from_.isEmpty && q.from_.tail.all (fun item => !item.on.isEmpty) && q.g.isSome

/-- All conditions of the statement. -/
def conds (q : Query) : List Cond := q.from_.flatMap FromItem.on ++ q.where_

/-- The joined rows, one key per alias. -/
def envs (db : Database) (delta : List Quad) (q : Query) : List (List Key) :=
  (q.from_.map fun item => db.rows delta item.source).sections.filter
    fun env => q.conds.all (db.holds env)

/-- The selected row; `none` if a column is `NULL`. -/
def select (q : Query) (env : List Key) : Option Key := do
  return ⟨← q.s.eval env, ← q.o.eval env, ← q.g⟩

/-- Execute the statement. -/
def exec (db : Database) (delta : List Quad) (q : Query) : Option (List Key) :=
  if q.wellFormed && (q.envs db delta).all (fun env => (q.select env).isSome) then
    some ((q.envs db delta).filterMap q.select)
  else none

variable {db : Database} {delta : List Quad} {q : Query} {env : List Key}

theorem mem_envs :
    env ∈ q.envs db delta ↔
      List.Forall₂ (fun k item => k ∈ db.rows delta item.source) env q.from_ ∧
        ∀ c ∈ q.conds, db.holds env c = true := by
  simp only [envs, List.mem_filter, List.mem_sections, List.all_eq_true,
    List.forall₂_map_right_iff]

/-- The rows of a successful statement are the selected columns of its joined rows. -/
theorem mem_exec {rows : List Key} (h : q.exec db delta = some rows) {k : Key} :
    k ∈ rows ↔ ∃ env ∈ q.envs db delta, q.select env = some k := by
  unfold exec at h
  split at h
  · cases h
    exact List.mem_filterMap
  · cases h

end Query

namespace RecQuery

variable (db : Database) (q : RecQuery)

/-- The columns that the `CYCLE` clause compares. -/
def cycleCols (k : Key) : Int × Int × Int := (k.s, k.o, if q.joinGraph then k.g else 0)

/-- The non-recursive part of the CTE. -/
def seeds : List Key :=
  (q.bases.flatMap db.stored).filter fun k => !q.defaultGraphOnly || k.g = 0

/-- One left extension of a row. -/
def extend (k : Key) : List Key :=
  ((db.stored q.stepPred).filter fun b => b.o = k.s && (!q.joinGraph || b.g = k.g)).map
    fun b => ⟨b.s, k.o, b.g⟩

/-- The rows below `k` in the recursion, for the cycle columns on the path to `k`.
A row that repeats one of them is marked as a cycle: it is neither selected nor
extended. -/
def expand : (fuel : Nat) → (path : List (Int × Int × Int)) → Key → List Key
  | 0, _, k => [k]
  | fuel + 1, path, k =>
    k :: if 0 < q.maxDepth → (path.length : Int) ≤ q.maxDepth then
        ((q.extend db k).filter fun k' => q.cycleCols k' ∉ path).flatMap
          fun k' => expand fuel (q.cycleCols k' :: path) k'
      else []

/-- A path without repetition is no longer than this. -/
def pathBound : Nat := ((q.seeds db).length + (db.stored q.stepPred).length) ^ 3

/-- The rows of the CTE that are not cycles. -/
def cteRows : List Key :=
  (q.seeds db).flatMap fun k => q.expand db (q.pathBound db) [q.cycleCols k] k

/-- Execute the statement. -/
def exec : List Key :=
  ((q.cteRows db).filter fun k => q.where_.all (db.holds [k])).map
    fun k => ⟨q.s.getD k.s, q.o.getD k.o, k.g⟩

end RecQuery

/-- Execute a compiled rule. -/
def Stmt.exec (db : Database) (delta : List Quad) : Stmt → Option (List Key)
  | .select q => q.exec db delta
  | .recursive q => some (q.exec db)

end PgRipple.Datalog
