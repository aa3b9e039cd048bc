import PgRipple.Sparql.Bgp

/-!
# `SELECT` queries over a basic graph pattern

The modifiers around a pattern are collected from the outside to the inside: the
outermost projection counts, but the innermost slice. The rows of the pattern are
projected, made distinct, and cut to the slice.

Which rows a slice keeps depends on the order in which they are listed. The order is left
open: an answer may list the rows in any order.
-/

namespace PgRipple.Sparql

open Storage

/-- A `GraphPattern`, as far as `extract_flat_bgp` and `extract_modifiers` tell them apart.
The expressions of an `ORDER BY` only decide in which order rows are listed. -/
inductive SelectPattern where
  | bgp (patterns : List TriplePattern)
  | project (inner : SelectPattern) (vars : List String)
  | distinct (inner : SelectPattern)
  | reduced (inner : SelectPattern)
  | orderBy (inner : SelectPattern)
  | slice (inner : SelectPattern) (start : Nat) (length : Option Nat)
  /-- Any other operator, with its depth and the number of its triple patterns. -/
  | other (depth count : Nat)

/-- `Modifiers`. -/
structure Modifiers where
  pattern : SelectPattern
  projectVars : Option (List String)
  distinct : Bool
  limit : Option Nat
  offset : Nat

namespace Modifiers

/-- The loop of `extract_modifiers`. -/
def collect (mods : Modifiers) : SelectPattern → Modifiers
  | .project inner vars =>
    collect { mods with projectVars := some (mods.projectVars.getD vars) } inner
  | .distinct inner | .reduced inner => collect { mods with distinct := true } inner
  | .slice inner start length => collect { mods with offset := start, limit := length } inner
  | .orderBy inner => collect mods inner
  | .bgp patterns => { mods with pattern := .bgp patterns }
  | .other depth count => { mods with pattern := .other depth count }

end Modifiers

/-- `extract_modifiers`. -/
def extractModifiers (query : SelectPattern) : Modifiers :=
  Modifiers.collect ⟨query, none, false, none, 0⟩ query

/-- `algebra_depth`. -/
def algebraDepth : SelectPattern → Nat
  | .bgp _ => 1
  | .project inner _ | .distinct inner | .reduced inner | .orderBy inner | .slice inner _ _ =>
    1 + algebraDepth inner
  | .other depth _ => depth

/-- `count_triple_patterns`, with its cast to 32 bits. -/
def countTriplePatterns : SelectPattern → Nat
  | .bgp patterns => patterns.length % 2 ^ 32
  | .project inner _ | .distinct inner | .reduced inner | .orderBy inner | .slice inner _ _ =>
    countTriplePatterns inner
  | .other _ count => count

/-- `sparql_max_algebra_depth` and `sparql_max_triple_patterns`; zero disables a limit. -/
structure ComplexityLimits where
  maxDepth : Nat
  maxPatterns : Nat

/-- `check_query_complexity`. -/
def checkQueryComplexity (limits : ComplexityLimits) (query : SelectPattern) :
    Except String Unit := do
  let depth := algebraDepth query
  if 0 < limits.maxDepth ∧ limits.maxDepth < depth then
    throw <| s!"PT440: SPARQL algebra tree depth {depth} exceeds sparql_max_algebra_depth limit " ++
      s!"of {limits.maxDepth}; simplify the query or raise pg_ripple.sparql_max_algebra_depth"
  let count := countTriplePatterns query
  if 0 < limits.maxPatterns ∧ limits.maxPatterns < count then
    throw <| s!"PT440: SPARQL query contains {count} triple patterns, exceeding " ++
      s!"sparql_max_triple_patterns limit of {limits.maxPatterns}; simplify the query or raise " ++
      "pg_ripple.sparql_max_triple_patterns"

/-- `Translation`, with the parts of the SQL text. -/
structure Translation where
  frag : Fragment
  vars : List String
  distinct : Bool
  limit : Option Nat
  offset : Nat

/-- `translate_select`, for a basic graph pattern. The planner hints around a cyclic pattern
do not change its rows. -/
def translateSelect {κ : Type} [LT κ] [DecidableLT κ] (env : Env) (bgpReorder : Bool)
    (estimate : PatternCost κ) (query : SelectPattern) : Option Translation :=
  let mods := extractModifiers query
  match mods.pattern with
  | .bgp patterns => do
    let (frag, _) ← translateBgp env bgpReorder estimate none 0 patterns
    let vars := mods.projectVars.getD ((frag.bindings.map Prod.fst).insertionSort (· ≤ ·))
    some ⟨frag, vars, mods.distinct, mods.limit, mods.offset⟩
  | _ => none

/-- `prepare_select`, where the plan is not in the cache. -/
def prepareSelect {κ : Type} [LT κ] [DecidableLT κ] (limits : ComplexityLimits) (env : Env)
    (bgpReorder : Bool) (estimate : PatternCost κ) (query : SelectPattern) :
    Except String (Option Translation) := do
  checkQueryComplexity limits query
  return translateSelect env bgpReorder estimate query

namespace Translation

/-- `SELECT {distinct} {columns} FROM … WHERE …`. -/
def rows (t : Translation) (db : Db) : List (List Value) :=
  let rows := (t.frag.joined db).map fun j => t.vars.map (t.frag.value db j)
  if t.distinct then rows.dedup else rows

/-- `LIMIT {limit} OFFSET {offset}`. -/
def slice (t : Translation) (rows : List (List Value)) : List (List Value) :=
  match t.limit with
  | some limit => (rows.drop t.offset).take limit
  | none => rows.drop t.offset

/-- The rows that PostgreSQL may return. -/
def Answers (t : Translation) (db : Db) (answer : List (List Value)) : Prop :=
  ∃ listed, listed.Perm (t.rows db) ∧ answer = t.slice listed

end Translation

inductive Json where
  | null
  | string (s : String)
  deriving DecidableEq, Repr

/-- A `Map`, which has each key once. -/
abbrev JsonObject := String → Option Json

def JsonObject.empty : JsonObject := fun _ => none

def JsonObject.insert (obj : JsonObject) (v : String) (json : Json) : JsonObject :=
  Function.update obj v (some json)

/-- The cell of a variable that is bound to a dictionary id. -/
def decodeCell (decode : TermId → Option String) : Value → Json
  | none => .null
  | some id => ((decode id).map Json.string).getD .null

/-- `execute_select`, on the rows of the answer. -/
def executeSelect (decode : TermId → Option String) (vars : List String)
    (answer : List (List Value)) : List JsonObject :=
  answer.map fun row => (vars.zip row).foldl
    (fun obj cell => obj.insert cell.1 (decodeCell decode cell.2)) JsonObject.empty

section Decoding

variable {decode : TermId → Option String}

/-- The object has the cells of the variables. -/
theorem foldl_cells (f : String → Value) (vars : List String) (obj : JsonObject) (v : String) :
    (vars.zip (vars.map f)).foldl
      (fun obj cell => obj.insert cell.1 (decodeCell decode cell.2)) obj v =
      if v ∈ vars then some (decodeCell decode (f v)) else obj v := by
  induction vars generalizing obj with
  | nil => rfl
  | cons w vars ih =>
    rw [List.map_cons, List.zip_cons_cons, List.foldl_cons, ih]
    by_cases later : v ∈ vars
    · rw [if_pos later, if_pos (List.mem_cons_of_mem w later)]
    · rw [if_neg later]
      by_cases same : v = w
      · rw [same, JsonObject.insert, Function.update_self, if_pos List.mem_cons_self]
      · rw [JsonObject.insert, Function.update_of_ne same, if_neg]
        rw [List.mem_cons, not_or]
        exact ⟨same, later⟩

end Decoding

end PgRipple.Sparql
