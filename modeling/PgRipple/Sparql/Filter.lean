import PgRipple.Lib.Kleene
import PgRipple.Sparql.Fragment

/-!
# Filters

`translate_expr` turns an expression into a condition and `translate_expr_value` into a
column. Conditions have three values, as everywhere in SQL: a comparison with `NULL` is
neither true nor false. Both translators give up on what they do not know: a variable
without a column, an IRI as a condition, a comparison as a value. What gives up takes the
expression around it along, up to the filter, which is `FALSE` then.

Expressions are those over variables and constants with comparisons, `sameTerm`, the
connectives, `BOUND` and `IF`; variables hold dictionary ids.
-/

namespace PgRipple.Sparql

/-- `Equal`, `Greater`, `GreaterOrEqual`, `Less` and `LessOrEqual`. -/
inductive CompareOp where
  | equal
  | greater
  | greaterOrEqual
  | less
  | lessOrEqual
  deriving DecidableEq, Repr

/-- `=`, `>`, `>=`, `<` and `<=` on `bigint`. -/
def CompareOp.onIds : CompareOp → TermId → TermId → Bool
  | .equal, x, y => x = y
  | .greater, x, y => y < x
  | .greaterOrEqual, x, y => y ≤ x
  | .less, x, y => x < y
  | .lessOrEqual, x, y => x ≤ y

/-- A comparison with `NULL` is neither true nor false. -/
def CompareOp.onValues (op : CompareOp) : Value → Value → Kleene.Truth
  | some x, some y => some (op.onIds x y)
  | _, _ => none

/-- `Expression`. -/
inductive Expression where
  | var (v : String)
  | namedNode (iri : String)
  | literal (lit : Literal)
  | compare (op : CompareOp) (a b : Expression)
  | sameTerm (a b : Expression)
  | and (a b : Expression)
  | or (a b : Expression)
  | not (a : Expression)
  | bound (v : String)
  | ite (cond thenExpr elseExpr : Expression)
  deriving DecidableEq, Repr

abbrev SqlBool := Db → Joined → Kleene.Truth

namespace SqlBool

/-- `FALSE`. -/
def never : SqlBool := fun _ _ => some false

/-- `({col} IS NOT NULL)`. -/
def isNotNull (col : ColExpr) : SqlBool := fun db j => some (col db j).isSome

/-- `({la} {op} {ra})`. -/
def compare (op : CompareOp) (la ra : ColExpr) : SqlBool := fun db j =>
  op.onValues (la db j) (ra db j)

/-- `CASE WHEN {cond} THEN ({then}) ELSE ({else}) END`. -/
def caseWhen (cond thenSql elseSql : SqlBool) : SqlBool := fun db j =>
  if cond db j = some true then thenSql db j else elseSql db j

end SqlBool

/-- The ids of `false` and of the integer `0`. -/
def falseIds : List TermId := [-9151314442816847872, -9187343239835811840]

/-- `({val}) IS NULL OR ({val}) IN (…)`. -/
def isFalsy (x : Value) : Bool := x.all fun id => decide (id ∈ falseIds)

/-- `http://www.w3.org/2001/XMLSchema#boolean`. -/
def xsdBoolean : String := "http://www.w3.org/2001/XMLSchema#boolean"

/-- What a constant means as a condition. -/
def Literal.condition (env : Env) (lit : Literal) : Bool :=
  if lit.datatype = xsdBoolean then decide (lit.value = "true" ∨ lit.value = "1")
  else decide (env.literalId lit ∉ falseIds)

section Translate

variable (env : Env) (iriId : String → TermId) (bindings : List (String × ColExpr))

mutual

/-- `translate_expr`; an IRI that is not in the dictionary yet is encoded by `iriId`. -/
def translateExpr : Expression → Option SqlBool
  | .var v => (bindings.lookup v).map .isNotNull
  | .literal lit => some fun _ _ => some (lit.condition env)
  | .compare op a b => do
    let la ← translateExprValue a
    let ra ← translateExprValue b
    some (.compare op la ra)
  | .sameTerm a b => do
    let la ← translateExprValue a
    let ra ← translateExprValue b
    some (.compare .equal la ra)
  | .and a b => do
    let la ← translateExpr a
    let ra ← translateExpr b
    some fun db j => Kleene.and (la db j) (ra db j)
  | .or a b => do
    let la ← translateExpr a
    let ra ← translateExpr b
    some fun db j => Kleene.or (la db j) (ra db j)
  | .not a => (translateExpr a).map fun c db j => Kleene.not (c db j)
  | .bound v => (bindings.lookup v).map .isNotNull
  | .ite cond thenExpr elseExpr =>
    let thenSql := (translateExpr thenExpr).getD .never
    let elseSql := (translateExpr elseExpr).getD .never
    match translateExprValue cond with
    | some condVal =>
      some fun db j => if isFalsy (condVal db j) then elseSql db j else thenSql db j
    | none => (translateExpr cond).map fun condSql => .caseWhen condSql thenSql elseSql
  | .namedNode _ => none

/-- `translate_expr_value`. -/
def translateExprValue : Expression → Option ColExpr
  | .var v => bindings.lookup v
  | .namedNode iri => some fun _ _ => some ((env.lookupIri iri).getD (iriId iri))
  | .literal lit => some fun _ _ => some (env.literalId lit)
  | .ite cond thenExpr elseExpr => do
    let thenSql ← translateExprValue thenExpr
    let elseSql := (translateExprValue elseExpr).getD fun _ _ => none
    let byValue (condVal : ColExpr) : ColExpr := fun db j =>
      if (condVal db j).isNone then none
      else if isFalsy (condVal db j) then elseSql db j else thenSql db j
    match cond with
    | .var v => (translateExprValue (.var v)).map byValue
    | cond =>
      match translateExpr cond with
      | some condSql =>
        some fun db j => if condSql db j = some true then thenSql db j else elseSql db j
      | none => (translateExprValue cond).map byValue
  | _ => none

end

/-- The condition of a filter. -/
def filterCond (e : Expression) : Cond :=
  match translateExpr env iriId bindings e with
  | some cond => fun db j => decide (cond db j = some true)
  | none => .never

end Translate

mutual

/-- `translate_expr` gives up. -/
def isDropped (names : List String) : Expression → Bool
  | .var v | .bound v => decide (v ∉ names)
  | .namedNode _ => true
  | .literal _ => false
  | .compare _ a b | .sameTerm a b => isValueless names a || isValueless names b
  | .and a b | .or a b => isDropped names a || isDropped names b
  | .not a => isDropped names a
  | .ite c _ _ => isValueless names c && isDropped names c

/-- `translate_expr_value` gives up. -/
def isValueless (names : List String) : Expression → Bool
  | .var v => decide (v ∉ names)
  | .namedNode _ | .literal _ => false
  | .ite c t _ => isValueless names t || isDropped names c && isValueless names c
  | _ => true

end

mutual

/-- `translate_expr` comes upon an IRI as a condition, which `sparql_strict` makes an error. -/
def isUnsupported (names : List String) : Expression → Bool
  | .namedNode _ => true
  | .compare _ a b | .sameTerm a b =>
    valueUnsupported names a || !isValueless names a && valueUnsupported names b
  | .and a b | .or a b => isUnsupported names a || !isDropped names a && isUnsupported names b
  | .not a => isUnsupported names a
  | .ite c t e =>
    isUnsupported names t || isUnsupported names e || valueUnsupported names c ||
      isValueless names c && isUnsupported names c
  | _ => false

/-- The same for `translate_expr_value`. -/
def valueUnsupported (names : List String) : Expression → Bool
  | .ite c t e =>
    valueUnsupported names t || !isValueless names t && (valueUnsupported names e ||
      isUnsupported names c || isDropped names c && valueUnsupported names c)
  | _ => false

end

/-- `translate_pattern`, for a filter around a pattern that is not a group, with the setting
`sparql_strict`; `none` is its error. -/
def translateFilter (strict : Bool) (env : Env) (iriId : String → TermId) (e : Expression)
    (frag : Fragment) : Option Fragment :=
  if strict = true ∧ isUnsupported (frag.bindings.map Prod.fst) e = true then none
  else some { frag with conditions := frag.conditions ++ [filterCond env iriId frag.bindings e] }

theorem joined_filterCond (env : Env) (iriId : String → TermId) (e : Expression)
    (frag : Fragment) (db : Db) :
    Fragment.joined { frag with
        conditions := frag.conditions ++ [filterCond env iriId frag.bindings e] } db =
      (frag.joined db).filter (filterCond env iriId frag.bindings e db) := by
  rw [Fragment.joined, Fragment.joined, List.filter_filter]
  refine List.filter_congr fun j _ => ?_
  show List.all (frag.conditions ++ [_]) _ = _
  rw [List.all_append, List.all_cons, List.all_nil, Bool.and_true, Bool.and_comm]

end PgRipple.Sparql
