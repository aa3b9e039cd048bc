import PgRipple.Sparql.Pattern
import PgRipple.Sparql.Leaf
import Mathlib.Data.List.Sections

/-!
# SQL fragments

Translating a graph pattern collects a fragment: items for the `FROM` clause, conditions
for the `WHERE` clause, and a column for each variable. SQL text is represented by what
it denotes. A source is the list of its rows, a column is read off a joined row, and a
condition holds of a joined row or does not; `NULL` compares as neither, so an equation
with it does not hold.

While it writes SQL, the translator looks things up: ids of constants, the place of a
predicate, the predicates with tables. `Env` is everything it can look up.
-/

namespace PgRipple.Sparql

open Storage

/-- A column of a `FROM` item: those of a triple, or one named after a variable. -/
inductive Col where
  | s
  | p
  | o
  | g
  | named (v : String)
  deriving DecidableEq, Repr

/-- A value, where `none` is `NULL`. -/
abbrev Value := Option TermId

abbrev SqlRow := List (Col × Value)

/-- A column that a row does not have reads as `NULL`. -/
def SqlRow.get (r : SqlRow) (c : Col) : Value := (r.lookup c).join

/-- A row of `_pg_ripple.dictionary` with `kind = 5`. -/
structure QuotedRow where
  id : TermId
  qtS : TermId
  qtP : TermId
  qtO : TermId
  deriving DecidableEq, Repr

/-- What a query reads. -/
structure Db where
  store : Store
  quoted : List QuotedRow

/-- A table, a view or a subquery. -/
structure Source where
  rows : Db → List SqlRow
  /-- The text of the source contains `_pg_ripple.vp_`. -/
  mentionsVp : Bool

/-- The alias of a `FROM` item: one with the number of a counter, or `_zero`. -/
inductive Alias where
  | counted (n : Nat)
  | zero
  deriving DecidableEq, Repr

instance : Coe Nat Alias := ⟨.counted⟩

/-- A row of the `FROM` clause: one row for each item, under its alias. -/
abbrev Joined := List (Alias × SqlRow)

/-- `_t{n}.{c}`. -/
def Joined.col (j : Joined) (n : Alias) (c : Col) : Value := (j.lookup n).bind (·.get c)

abbrev ColExpr := Db → Joined → Value

abbrev Cond := Db → Joined → Bool

def column (n : Alias) (c : Col) : ColExpr := fun _ j => j.col n c

/-- `a = b`. -/
def Cond.eq (a b : ColExpr) : Cond := fun db j => (a db j).isSome && a db j = b db j

/-- `a = {id}`. -/
def Cond.eqId (a : ColExpr) (id : TermId) : Cond := fun db j => a db j = some id

/-- `FALSE`. -/
def Cond.never : Cond := fun _ _ => false

theorem Cond.eq_iff {a b : ColExpr} {db : Db} {j : Joined} :
    Cond.eq a b db j = true ↔ ∃ id, a db j = some id ∧ b db j = some id := by
  rw [Cond.eq, Bool.and_eq_true, decide_eq_true_iff]
  constructor
  · rintro ⟨known, same⟩
    obtain ⟨id, value⟩ := Option.isSome_iff_exists.mp known
    exact ⟨id, value, same.symm.trans value⟩
  · rintro ⟨id, value, value'⟩
    rw [value, value']
    exact ⟨rfl, rfl⟩

theorem Cond.eqId_iff {a : ColExpr} {id : TermId} {db : Db} {j : Joined} :
    Cond.eqId a id db j = true ↔ a db j = some id := decide_eq_true_iff

@[simp] theorem Cond.not_never {db : Db} {j : Joined} : Cond.never db j = false := rfl

/-- `Fragment`. -/
structure Fragment where
  fromItems : List (Alias × Source)
  conditions : List Cond
  bindings : List (String × ColExpr)

namespace Fragment

def empty : Fragment := ⟨[], [], []⟩

/-- `SELECT * FROM {build_from} {build_where}`. -/
def joined (frag : Fragment) (db : Db) : List Joined :=
  (frag.fromItems.map fun item => (item.2.rows db).map fun r => (item.1, r)).sections.filter
    fun j => frag.conditions.all fun c => c db j

/-- The column bound to a name; without one the `SELECT` clause writes `NULL`. -/
def value (frag : Fragment) (db : Db) (j : Joined) (name : String) : Value :=
  (frag.bindings.lookup name).bind fun e => e db j

end Fragment

structure Env where
  /-- `encode_iri`: the id of an IRI that is in the dictionary. -/
  lookupIri : String → Option TermId
  /-- `encode_literal`, which encodes a new literal. -/
  literalId : Literal → TermId
  lookupQuotedTriple : TermId → TermId → TermId → Option TermId
  vpSource : TermId → VpSource
  /-- The predicates with tables, unless there are too many predicates. -/
  unionPredicates : Option (List TermId)
  /-- `service_graph_exclude`. -/
  serviceGraphs : List TermId
  /-- `bn_scope_prefix`, new for every query. -/
  bnScopePrefix : String
  /-- `char::is_alphanumeric`. -/
  isAlphanumeric : Char → Bool

/-- `sanitize_sql_ident`. -/
def Env.sanitizeSqlIdent (env : Env) (v : String) : String :=
  String.ofList (v.toList.map fun c => if env.isAlphanumeric c || c = '_' then c else '_')

/-- The name under which a blank node is bound. -/
def Env.blankName (env : Env) (label : String) : String :=
  env.sanitizeSqlIdent ("_bn_" ++ env.bnScopePrefix ++ "_" ++ "_:" ++ label)

/-- The service graphs are excluded unless a graph is asked for. -/
def Env.serviceExcl (env : Env) (graphFilter : Option TermId) : List TermId :=
  if graphFilter.isSome then [] else env.serviceGraphs

/-- The row of a table expression. -/
def tripleRow (k : Key) : SqlRow := [(.s, some k.s), (.o, some k.o), (.g, some k.g)]

/-- The row of the union over all predicates. -/
def quadRow (q : Quad) : SqlRow :=
  [(.p, some q.p), (.s, some q.s), (.o, some q.o), (.g, some q.g)]

/-- `table_expr`, as a source. -/
def tableSource (src : VpSource) (graphFilter : Option TermId) (svcExcl : List TermId) : Source
    where
  rows db := (tableExpr db.store src graphFilter svcExcl).map tripleRow
  mentionsVp := src ≠ .empty

/-- The quads of a union over the views of some predicates and `vp_rare`. -/
def unionQuads (preds : List TermId) (st : Store) (graphFilter : Option TermId)
    (svcExcl : List TermId) : List Quad :=
  ((preds.flatMap fun p => (viewKeys st p).map (Key.quad · p)) ++
    st.rare.rows.map RareRow.quad).filter fun q => graphCondition graphFilter svcExcl q.g

/-- `build_all_predicates_union`, with the predicates found in the catalog. -/
def unionSource (preds : List TermId) (graphFilter : Option TermId) (svcExcl : List TermId) :
    Source where
  rows db := (unionQuads preds db.store graphFilter svcExcl).map quadRow
  mentionsVp := true

end PgRipple.Sparql
