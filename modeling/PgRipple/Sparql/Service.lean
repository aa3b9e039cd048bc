import PgRipple.Sparql.Union
import Mathlib.Tactic.Linarith

/-!
# `SERVICE`

A `SERVICE` clause is sent to its endpoint, and the rows of the answer become a `VALUES` list.
Two clauses for the same endpoint without common variables are sent as one query, the union of
both, and the rows of its answer are taken for the rows of the join.

A row of the union binds variables of one clause only. A row of the join puts a row of each
clause together, so the two can be the same only if one of the clauses binds nothing at all.
-/

namespace PgRipple.Sparql

/-- `GraphPattern`. What the translator does not look into, such as expressions, is an `ε`. -/
inductive ServicePattern (ε : Type) where
  | bgp (patterns : List TriplePattern)
  | path (subject : TermPattern) (path : ε) (object : TermPattern)
  | join (left right : ServicePattern ε)
  | leftJoin (left right : ServicePattern ε) (expression : Option ε)
  | lateral (left right : ServicePattern ε)
  | filter (expr : ε) (inner : ServicePattern ε)
  | union (left right : ServicePattern ε)
  | graph (name : NamedNodePattern) (inner : ServicePattern ε)
  | extend (inner : ServicePattern ε) (v : String) (expression : ε)
  | minus (left right : ServicePattern ε)
  | values (vars : List String) (bindings : ε)
  | orderBy (inner : ServicePattern ε) (expression : ε)
  | project (inner : ServicePattern ε) (vars : List String)
  | distinct (inner : ServicePattern ε)
  | reduced (inner : ServicePattern ε)
  | slice (inner : ServicePattern ε) (start : Nat) (length : Option Nat)
  | group (inner : ServicePattern ε) (vars : List String) (aggregates : ε)
  | service (name : NamedNodePattern) (inner : ServicePattern ε) (silent : Bool)

def termVars : TermPattern → List String
  | .var v => [v]
  | _ => []

def predicateVars : NamedNodePattern → List String
  | .var v => [v]
  | .namedNode _ => []

def tripleVars (tp : TriplePattern) : List String :=
  termVars tp.subject ++ predicateVars tp.predicate ++ termVars tp.object

/-- `collect_pattern_variables`. It passes by the variables of `GRAPH`, `BIND` and quoted
triples. -/
def collectPatternVariables {ε : Type} : ServicePattern ε → List String
  | .bgp patterns => patterns.flatMap tripleVars
  | .path subject _ object => termVars subject ++ termVars object
  | .join left right | .leftJoin left right _ | .lateral left right | .union left right
  | .minus left right => collectPatternVariables left ++ collectPatternVariables right
  | .filter _ inner | .graph _ inner | .extend inner _ _ | .orderBy inner _ | .distinct inner
  | .reduced inner | .slice inner _ _ | .service _ inner _ => collectPatternVariables inner
  | .project inner vars | .group inner vars _ => vars ++ collectPatternVariables inner
  | .values vars _ => vars

/-- `SELECT {projection} WHERE {body}`; without variables it is `SELECT *`. -/
structure RemoteQuery (ε : Type) where
  projection : List String
  body : ServicePattern ε

/-- The query for some variables, sorted. -/
def selectQuery {ε : Type} (vars : List String) (body : ServicePattern ε) : RemoteQuery ε :=
  ⟨vars.dedup.insertionSort (· ≤ ·), body⟩

/-- The variables of an answer and its rows, with terms as they are written in N-Triples. -/
abbrev RemoteAnswer := List String × List (List (Option String))

/-- What the translators of `SERVICE` ask about the endpoint and the configuration. -/
structure ServiceEnv (ε : Type) where
  /-- `check_endpoint_policy`. -/
  policyOk : Bool
  /-- `is_endpoint_allowed`. -/
  allowed : Bool
  /-- `is_endpoint_healthy`. -/
  healthy : Bool
  /-- `get_local_view`: the variables of a stream table, and the table. -/
  localView : Option (List String × Source)
  /-- `get_graph_iri`: the translator inside of the graph that stands for the endpoint, or
  nothing if the dictionary does not know the graph. -/
  graphPattern : Option (Option (ServicePattern ε → Nat → Option (Fragment × Nat)))
  /-- The answer of the endpoint. -/
  remote : RemoteQuery ε → Except String RemoteAnswer
  /-- `pg_ripple.federation_max_results`. -/
  maxResults : Nat
  /-- `pg_ripple.federation_on_error` is `error`. -/
  raisesErrors : Bool
  /-- `encode_ntriples_term`. -/
  encodeTerm : String → TermId
  /-- The identifier that the server reads. -/
  ident : String → String

namespace Fragment

/-- `zero_rows`, always under the same alias. -/
def zeroRows : Fragment := ⟨[(.zero, ⟨fun _ => [], false⟩)], [], []⟩

/-- PostgreSQL rejects the merge of two such fragments, which names `_zero` twice. -/
theorem not_apart_zeroRows : ¬ zeroRows.Apart zeroRows :=
  fun apart => apart (List.mem_singleton_self _) (List.mem_singleton_self _)

/-- A fragment with the condition `FALSE`. -/
def rejectAll : Fragment := ⟨[], [.never], []⟩

end Fragment

section Translate

variable {ε : Type} (svc : ServiceEnv ε)

/-- `execute_remote`, up to the number of rows that are read. -/
def executeRemote (query : RemoteQuery ε) : Except String RemoteAnswer :=
  (svc.remote query).map fun answer => (answer.1, answer.2.take svc.maxResults)

/-- `encode_results`. -/
def encodeResults (rows : List (List (Option String))) : List (List Value) :=
  rows.map fun row => row.map fun cell => cell.map svc.encodeTerm

/-- The `VALUES` list or the temporary table of some rows; the table is taken to be new. -/
def serviceSource (vars : List String) (rows : List (List Value)) : Source where
  rows _ := rows.map fun row => (vars.zip row).map fun cell =>
    (columnOf svc.ident "_svc_" cell.1, cell.2)
  mentionsVp := false

/-- `translate_service_values`; `none` if a column that is read is ambiguous. -/
def translateServiceValues (n : Nat) (vars : List String) (rows : List (List Value)) :
    Option (Fragment × Nat) :=
  if vars.isEmpty || rows.isEmpty then some (.empty, n)
  else if (vars.map (columnOf svc.ident "_svc_")).Nodup then
    some (⟨[(.counted (n + 1), serviceSource svc vars rows)], [],
      vars.map fun v => (v, column (.counted (n + 1)) (columnOf svc.ident "_svc_" v))⟩, n + 2)
  else none

/-- The rows of an answer; an answer without variables has none. -/
def translateAnswer (n : Nat) (answer : RemoteAnswer) : Option (Fragment × Nat) :=
  if answer.1.isEmpty || answer.2.isEmpty then some (.zeroRows, n)
  else translateServiceValues svc n answer.1 (encodeResults svc answer.2)

/-- `translate_service_local`. -/
def translateServiceLocal (n : Nat) (vars : List String) (table : Source) : Fragment × Nat :=
  if vars.isEmpty then (.rejectAll, n)
  else (⟨[(n, table)], [], vars.map fun v => (v, column n (columnOf svc.ident "_v_" v))⟩, n + 1)

/-- `translate_service` for an endpoint that is named by its IRI; `none` if an error is raised. -/
def translateService (inner : ServicePattern ε) (silent : Bool) (n : Nat) :
    Option (Fragment × Nat) :=
  if !svc.policyOk || !svc.allowed then
    if silent then some (.empty, n) else none
  else if !svc.healthy && silent then some (.empty, n)
  else
    match svc.localView with
    | some (vars, table) => some (translateServiceLocal svc n vars table)
    | none =>
      match svc.graphPattern with
      | some (some translate) => translate inner n
      | some none => some (.rejectAll, n)
      | none =>
        match executeRemote svc (selectQuery (collectPatternVariables inner) inner) with
        | .ok answer => translateAnswer svc n answer
        | .error _ =>
          if silent then some (.empty, n)
          else if svc.raisesErrors then none
          else some (.zeroRows, n)

/-- The query for both clauses. -/
def combinedQuery (innerL innerR : ServicePattern ε) : RemoteQuery ε :=
  selectQuery (collectPatternVariables innerL ++ collectPatternVariables innerR)
    (.union innerL innerR)

/-- `translate_service_batched`; the outer `none` leaves the clauses to `translate_service`, the
inner one is an ambiguous column. -/
def translateServiceBatched (innerL innerR : ServicePattern ε) (silent : Bool) (n : Nat) :
    Option (Option (Fragment × Nat)) :=
  if !svc.allowed || !svc.healthy || svc.localView.isSome then none
  else
    match executeRemote svc (combinedQuery innerL innerR) with
    | .ok answer => some (translateAnswer svc n answer)
    | .error _ => if silent then some (some (.empty, n)) else none

end Translate

/-- The solution of a row. -/
def rowSolution (vars : List String) (row : List Value) : Mapping String TermId := fun v =>
  ((vars.zip row).lookup v).join

section Answers

variable {ε : Type} {svc : ServiceEnv ε} {n m : Nat} {answer : RemoteAnswer} {frag : Fragment}
  {db : Db}

/-- The rows of an answer that the query goes on with. -/
def received (svc : ServiceEnv ε) (answer : RemoteAnswer) : Multiset (Mapping String TermId) :=
  if answer.1.isEmpty then 0
  else (encodeResults svc answer.2 : Multiset (List Value)).map (rowSolution answer.1)

/-- The server rejects the columns of the answer. -/
def Ambiguous (svc : ServiceEnv ε) (answer : RemoteAnswer) : Prop :=
  received svc answer ≠ 0 ∧ ¬ (answer.1.map (columnOf svc.ident "_svc_")).Nodup

theorem solutions_zeroRows : Fragment.zeroRows.solutions db = 0 := by
  simp [Fragment.solutions, Fragment.zeroRows, joined_single]

theorem received_eq_zero_iff : received svc answer = 0 ↔ answer.1.isEmpty || answer.2.isEmpty := by
  rw [received]
  cases empty : answer.1.isEmpty with
  | true => simp
  | false => simp [encodeResults, List.isEmpty_iff]

/-- Columns are read back as they were written. -/
theorem get_zip {vars : List String} {row : List Value} {col : String → Col}
    (distinct : (vars.map col).Nodup) {v : String} (hv : v ∈ vars) :
    SqlRow.get ((vars.zip row).map fun cell => (col cell.1, cell.2)) (col v) =
      rowSolution vars row v := by
  induction vars generalizing row with
  | nil => cases hv
  | cons w vars ih =>
    obtain ⟨fresh, distinct⟩ := List.nodup_cons.mp distinct
    cases row with
    | nil => rfl
    | cons x row =>
      rw [SqlRow.get, rowSolution, List.zip_cons_cons, List.map_cons, List.lookup_cons,
        List.lookup_cons]
      by_cases same : v = w
      · simp [same]
      · have later : v ∈ vars := List.mem_of_ne_of_mem same hv
        have other : (col v == col w) = false := by
          rw [beq_eq_false_iff_ne]
          intro equal
          exact fresh (equal ▸ List.mem_map_of_mem later)
        have other' : (v == w) = false := by simpa using same
        rw [other, other']
        exact ih distinct later

theorem rowSolution_of_not_mem {vars : List String} {row : List Value} {v : String}
    (hv : v ∉ vars) : rowSolution vars row v = none := by
  have absent : (vars.zip row).lookup v = none := by
    rw [List.lookup_eq_none_iff]
    intro cell hcell
    rw [bne_iff_ne]
    rintro rfl
    exact hv (List.of_mem_zip hcell).1
  rw [rowSolution, absent]
  rfl

/-- A row of values leaves unbound what the values do. -/
theorem rowSolution_map_of_none {head : List String} {ν : Mapping String String} {v : String}
    {encode : String → TermId} (free : ν v = none) :
    rowSolution head ((head.map ν).map fun cell => cell.map encode) v = none := by
  rw [rowSolution]
  induction head with
  | nil => rfl
  | cons w head ih =>
    rw [List.map_cons, List.map_cons, List.zip_cons_cons, List.lookup_cons]
    by_cases here : v = w
    · simp [← here, free]
    · have other : (v == w) = false := by simpa using here
      rw [other]
      exact ih

/-- The fragment of an answer has the rows of the answer. -/
theorem translateAnswer_cases :
    Ambiguous svc answer ∧ translateAnswer svc n answer = none ∨
      ¬ Ambiguous svc answer ∧ ∃ frag m, translateAnswer svc n answer = some (frag, m) ∧
        ∀ db, frag.solutions db = received svc answer := by
  rw [translateAnswer]
  by_cases none_ : (answer.1.isEmpty || answer.2.isEmpty) = true
  · rw [if_pos none_]
    have zero : received svc answer = 0 := received_eq_zero_iff.mpr none_
    refine .inr ⟨fun ambiguous => ambiguous.1 zero, _, _, rfl, fun db => ?_⟩
    rw [solutions_zeroRows, zero]
  · rw [if_neg none_, translateServiceValues]
    have some_ : received svc answer ≠ 0 := fun zero => none_ (received_eq_zero_iff.mp zero)
    have full : (answer.1.isEmpty || (encodeResults svc answer.2).isEmpty) = false := by
      simpa [encodeResults] using none_
    rw [if_neg (by simp [full])]
    by_cases distinct : (answer.1.map (columnOf svc.ident "_svc_")).Nodup
    · rw [if_pos distinct]
      refine .inr ⟨fun ambiguous => ambiguous.2 distinct, _, _, rfl, fun db => ?_⟩
      have named : answer.1.isEmpty = false := (Bool.or_eq_false_iff.mp full).1
      rw [received, if_neg (by simp [named]), Fragment.solutions, joined_single, Multiset.map_coe,
        Multiset.map_coe, List.map_map, serviceSource, List.map_map]
      refine congrArg Multiset.ofList (List.map_congr_left fun row _ => ?_)
      funext v
      rw [Function.comp_apply, Function.comp_apply, Fragment.value, lookup_map_vars]
      by_cases hv : v ∈ answer.1
      · rw [if_pos hv]
        show Joined.col _ _ _ = _
        rw [Joined.col, List.lookup_cons, beq_self_eq_true]
        exact get_zip distinct hv
      · rw [if_neg hv, rowSolution_of_not_mem hv]
        rfl
    · rw [if_neg distinct]
      exact .inl ⟨⟨some_, distinct⟩, rfl⟩

end Answers

/-- An endpoint that answers each query with its solutions, in some order. `*` asks for variables
of its own choice. -/
structure SparqlEndpoint {ε : Type} (svc : ServiceEnv ε) where
  solutions : ServicePattern ε → List (Mapping String String)
  /-- The variables that a pattern may bind. -/
  inScope : ServicePattern ε → List String
  within : ∀ P, ∀ μ ∈ solutions P, Mapping.Within (inScope P) μ
  union : ∀ P Q, (solutions (.union P Q)).Perm (solutions P ++ solutions Q)
  answers : ∀ query, ∃ head rows, svc.remote query = .ok (head, rows) ∧
    (query.projection ≠ [] → head = query.projection) ∧
    rows.Perm ((solutions query.body).map fun μ => head.map μ)
  policy : svc.policyOk = true
  /-- No local graph stands for it. -/
  elsewhere : svc.graphPattern = none

section Batch

variable {ε : Type} (svc : ServiceEnv ε)

/-- The solutions that a query goes on with. -/
def solutionsOf (query : RemoteQuery ε) : Multiset (Mapping String TermId) :=
  match executeRemote svc query with
  | .ok answer => received svc answer
  | .error _ => 0

/-- The server rejects the columns of the answer. -/
def AmbiguousQuery (query : RemoteQuery ε) : Prop :=
  match executeRemote svc query with
  | .ok answer => Ambiguous svc answer
  | .error _ => False

/-- The query for a clause. -/
def clauseQuery (inner : ServicePattern ε) : RemoteQuery ε :=
  selectQuery (collectPatternVariables inner) inner

/-- Clauses for the endpoint are sent together. -/
def Batches : Prop := svc.allowed = true ∧ svc.healthy = true ∧ svc.localView = none

/-- One of the clauses returns `k` rows that bind nothing, for some `k`, and the query for both
returns each row of the other clause `k` times. -/
def Absorbed (innerL innerR : ServicePattern ε) : Prop :=
  ∃ k, solutionsOf svc (clauseQuery innerR) = Multiset.replicate k Mapping.empty ∧
      solutionsOf svc (combinedQuery innerL innerR) = k • solutionsOf svc (clauseQuery innerL) ∨
    solutionsOf svc (clauseQuery innerL) = Multiset.replicate k Mapping.empty ∧
      solutionsOf svc (combinedQuery innerL innerR) = k • solutionsOf svc (clauseQuery innerR)

/-- What the batch returns is the join of what the clauses return. -/
def BatchKeepsJoin (innerL innerR : ServicePattern ε) (silentL silentR : Bool) (n : Nat)
    (db : Db) : Prop :=
  ∀ out, translateServiceBatched svc innerL innerR (silentL || silentR) n = some out →
    ∀ fl m fr m', translateService svc innerL silentL n = some (fl, m) →
      translateService svc innerR silentR m = some (fr, m') →
      ∃ frag m'', out = some (frag, m'') ∧
        frag.solutions db = Mapping.join (fl.solutions db) (fr.solutions db)

end Batch

section Returned

variable {ε : Type} {svc : ServiceEnv ε} {head : List String} {ν : Mapping String String}
  {v : String}

/-- A solution as it comes back in an answer for these variables. -/
def returned (svc : ServiceEnv ε) (head : List String) (ν : Mapping String String) :
    Mapping String TermId :=
  rowSolution head ((head.map ν).map fun cell => cell.map svc.encodeTerm)

theorem returned_apply :
    returned svc head ν v = if v ∈ head then (ν v).map svc.encodeTerm else none := by
  rw [returned, rowSolution]
  induction head with
  | nil => rfl
  | cons w head ih =>
    rw [List.map_cons, List.map_cons, List.zip_cons_cons, List.lookup_cons]
    by_cases here : v = w
    · simp [← here]
    · have other : (v == w) = false := by simpa using here
      simp only [other, List.mem_cons, here, false_or]
      exact ih

theorem within_returned {names : List String} (within : Mapping.Within names ν) :
    Mapping.Within names (returned svc head ν) := by
  intro v hv
  rw [returned_apply, within v hv]
  split <;> rfl

/-- An answer has the solutions in some order, up to the limit, unless it has no variables. -/
theorem SparqlEndpoint.exists_returned (endpoint : SparqlEndpoint svc) (query : RemoteQuery ε) :
    ∃ (head : List String) (all : List (Mapping String String)),
      all.Perm (endpoint.solutions query.body) ∧
      solutionsOf svc query = if head.isEmpty then 0
        else ((all.take svc.maxResults).map (returned svc head) :
          Multiset (Mapping String TermId)) := by
  obtain ⟨head, rows, answered, -, same⟩ := endpoint.answers query
  obtain ⟨all, rfl, perm⟩ : ∃ all : List (Mapping String String),
      rows = all.map (fun μ => head.map μ) ∧ all.Perm (endpoint.solutions query.body) := by
    have comp := congrFun (congrFun (List.eq_map_comp_perm fun μ : Mapping String String =>
      head.map μ) rows) (endpoint.solutions query.body)
    obtain ⟨all, here, perm⟩ := comp.mpr same
    exact ⟨all, here, perm⟩
  refine ⟨head, all, perm, ?_⟩
  have executed : executeRemote svc query =
      .ok (head, (all.map fun μ => head.map μ).take svc.maxResults) := by
    rw [executeRemote, answered]
    rfl
  rw [solutionsOf, executed]
  simp only [received]
  split
  · rfl
  · rw [← List.map_take, encodeResults, Multiset.map_coe, List.map_map, List.map_map]
    rfl

end Returned

section Blank

variable {ε : Type} (svc : ServiceEnv ε)

/-- The answer comes back as `k` rows that bind nothing. -/
def Blank (query : RemoteQuery ε) (k : Nat) : Prop :=
  solutionsOf svc query = Multiset.replicate k Mapping.empty

variable {svc} {P Q : ServicePattern ε} {query queryP queryQ queryC : RemoteQuery ε} {k : Nat}

theorem exists_blank_iff :
    (∃ i, Blank svc query i) ↔ ∀ μ ∈ solutionsOf svc query, μ = Mapping.empty := by
  constructor
  · rintro ⟨i, blank⟩ μ hμ
    rw [blank] at hμ
    exact Multiset.eq_of_mem_replicate hμ
  · intro all
    exact ⟨_, Multiset.eq_replicate_card.mpr all⟩

/-- Products of numbers up to a limit that are sums up to the limit. -/
theorem mul_min_eq_min_add {m a b k : Nat} (hk : k = min m b) (two : 2 ≤ k) (pos : 0 < min m a)
    (same : k * min m a = min m (a + b)) : a = 1 ∨ a = 2 ∧ b = 2 ∧ 4 ≤ m := by
  have limit : k * min m a ≤ m := same ▸ Nat.min_le_left _ _
  have sum : k * min m a ≤ a + b := same ▸ Nat.min_le_right _ _
  by_cases fills : m ≤ a
  · rw [Nat.min_eq_left fills] at limit pos
    nlinarith
  rw [Nat.min_eq_right (by omega)] at limit sum pos
  by_cases cut : m ≤ b
  · rw [hk, Nat.min_eq_left cut] at limit
    left
    nlinarith
  · rw [hk, Nat.min_eq_right (by omega)] at limit sum
    have hb : 2 ≤ b := by omega
    by_cases single : a = 1
    · exact .inl single
    · have ha : 2 ≤ a := by omega
      have both : a ≤ 2 ∧ b ≤ 2 := by constructor <;> nlinarith
      obtain ⟨rfl, rfl⟩ : a = 2 ∧ b = 2 := by omega
      exact .inr ⟨rfl, rfl, by omega⟩

/-- A part of two lists that is longer than the first has an element of the second. -/
theorem exists_mem_of_length_lt {α : Type*} {xs ys l : List α} (part : l.Subperm (xs ++ ys))
    (longer : xs.length < l.length) : ∃ x ∈ l, x ∈ ys := by
  classical
  by_contra none
  have outside : l.countP (· ∉ ys) = l.length :=
    List.countP_eq_length.mpr fun x hx => decide_eq_true fun hy => none ⟨x, hx, hy⟩
  have inside : ys.countP (· ∉ ys) = 0 := List.countP_eq_zero.mpr (by simp)
  have most := part.countP_le (· ∉ ys)
  have fewer := List.countP_le_length (p := (· ∉ ys)) (l := xs)
  rw [outside, List.countP_append, inside] at most
  omega

theorem eq_empty_of_within {names names' : List String} {μ : Mapping String TermId}
    (apart : names.Disjoint names') (left : Mapping.Within names μ)
    (right : Mapping.Within names' μ) : μ = Mapping.empty := by
  funext v
  by_cases hv : v ∈ names
  · exact right v fun hv' => apart hv hv'
  · exact left v hv

/-- What is returned, unless it is nothing, is cut to the limit. -/
theorem SparqlEndpoint.card_solutionsOf (endpoint : SparqlEndpoint svc)
    (some_ : solutionsOf svc query ≠ 0) : (solutionsOf svc query).card =
      min svc.maxResults (endpoint.solutions query.body).length := by
  obtain ⟨head, all, perm, rows⟩ := endpoint.exists_returned query
  have named : ¬ head.isEmpty = true := fun none => some_ (rows.trans (if_pos none))
  rw [rows, if_neg named, Multiset.coe_card, List.length_map, List.length_take, perm.length_eq]

/-- Rows that come back as one that binds something, under other names, are none of them empty. -/
theorem empty_notMem_returned {head head' : List String} {rows : List (Mapping String String)}
    {μ : Mapping String TermId} (hμ : μ ∈ rows.map (returned svc head)) (bound : μ ≠ Mapping.empty)
    (every : ∀ ν ∈ rows, returned svc head' ν = μ) :
    Mapping.empty ∉ rows.map (returned svc head) := by
  intro empty
  obtain ⟨μ₀, hμ₀, isEmpty⟩ := List.mem_map.mp empty
  obtain ⟨μ₁, -, same₁⟩ := List.mem_map.mp hμ
  obtain ⟨v, hv⟩ : ∃ v, μ v ≠ none := by
    by_contra unbound
    refine bound (funext fun v => ?_)
    exact not_not.mp fun bound => unbound ⟨v, bound⟩
  have asked : v ∈ head := by
    by_contra other
    rw [← same₁, returned_apply, if_neg other] at hv
    exact hv rfl
  have binds : μ₀ v ≠ none := by
    intro free
    rw [← every μ₀ hμ₀, returned_apply, free] at hv
    exact hv (by split <;> rfl)
  have free := congrFun isEmpty v
  rw [returned_apply, if_pos asked] at free
  exact binds (Option.map_eq_none_iff.mp free)

/-- If a clause returns rows that bind nothing and the combined query returns the other clause
that often, the other clause binds nothing either, or fills the limit. -/
theorem SparqlEndpoint.blank_or_cut (endpoint : SparqlEndpoint svc) (k : ℕ)
    (queryP queryQ queryC : RemoteQuery ε)
    (apart : (endpoint.inScope queryP.body).Disjoint (endpoint.inScope queryQ.body))
    (union : (endpoint.solutions queryC.body).Perm
      (endpoint.solutions queryP.body ++ endpoint.solutions queryQ.body))
    (blank : Blank svc queryQ k) (same : solutionsOf svc queryC = k • solutionsOf svc queryP) :
    k = 0 ∨ (∃ i, Blank svc queryP i) ∨
      k = 1 ∧ svc.maxResults ≤ (endpoint.solutions queryP.body).length := by
  by_cases hk : k = 0
  · exact .inl hk
  by_cases zero : solutionsOf svc queryP = 0
  · exact .inr (.inl ⟨0, zero⟩)
  have zeroQ : solutionsOf svc queryQ ≠ 0 := by
    intro none
    exact hk (by simpa [none] using (congrArg Multiset.card blank).symm)
  have zeroC : solutionsOf svc queryC ≠ 0 := by
    intro none
    have cards := congrArg Multiset.card (none.symm.trans same)
    rw [Multiset.card_zero, Multiset.card_nsmul, eq_comm, Nat.mul_eq_zero] at cards
    exact cards.elim hk fun none => zero (Multiset.card_eq_zero.mp none)
  have cardP := endpoint.card_solutionsOf zero
  have cardQ := endpoint.card_solutionsOf zeroQ
  have cardC := endpoint.card_solutionsOf zeroC
  rw [show _ = _ from blank, Multiset.card_replicate] at cardQ
  rw [same, Multiset.card_nsmul, union.length_eq, List.length_append] at cardC
  have pos : 0 < (solutionsOf svc queryP).card := Multiset.card_pos.mpr zero
  obtain ⟨headP, allP, permP, rowsP⟩ := endpoint.exists_returned queryP
  obtain ⟨headC, allC, permC, rowsC⟩ := endpoint.exists_returned queryC
  have namedP : ¬ headP.isEmpty = true := fun none => zero (rowsP.trans (if_pos none))
  have namedC : ¬ headC.isEmpty = true := fun none => zeroC (rowsC.trans (if_pos none))
  rw [if_neg namedP] at rowsP
  rw [if_neg namedC] at rowsC
  rw [cardP] at cardC pos
  by_cases one : k = 1
  · rw [one, Nat.one_mul] at cardC
    refine .inr (.inr ⟨one, ?_⟩)
    omega
  refine .inr (.inl (exists_blank_iff.mpr ?_))
  have memC {ν : Mapping String String} (hν : ν ∈ allC.take svc.maxResults) :
      returned svc headC ν ∈ solutionsOf svc queryP := by
    have found : returned svc headC ν ∈ solutionsOf svc queryC := by
      rw [rowsC]
      exact List.mem_map_of_mem hν
    rw [same] at found
    exact (Multiset.mem_nsmul.mp found).2
  have withinP {μ : Mapping String TermId} (hμ : μ ∈ solutionsOf svc queryP) :
      Mapping.Within (endpoint.inScope queryP.body) μ := by
    rw [rowsP] at hμ
    obtain ⟨ν, hν, rfl⟩ := List.mem_map.mp hμ
    exact within_returned
      (endpoint.within _ ν (permP.mem_iff.mp (List.mem_of_mem_take hν)))
  -- what comes back for the other clause binds nothing
  have emptyQ {ν : Mapping String String} (hν : ν ∈ allC.take svc.maxResults)
      (hQ : ν ∈ endpoint.solutions queryQ.body) : returned svc headC ν = Mapping.empty :=
    eq_empty_of_within apart (withinP (memC hν)) (within_returned (endpoint.within _ ν hQ))
  obtain single | ⟨twoP, twoQ, four⟩ := mul_min_eq_min_add cardQ (by omega) pos cardC
  · -- at most one of two rows is the one solution of the first clause
    obtain ⟨ν, hν, hQ⟩ := exists_mem_of_length_lt ((List.take_sublist svc.maxResults
      allC).subperm.trans (permC.trans union).subperm) (by
        rw [List.length_take, permC.length_eq, union.length_eq, List.length_append]
        omega)
    have here := memC hν
    rw [emptyQ hν hQ] at here
    obtain ⟨μ, all⟩ : ∃ μ, solutionsOf svc queryP = {μ} :=
      Multiset.card_eq_one.mp (by rw [cardP]; omega)
    rw [all] at here ⊢
    intro μ' hμ'
    rw [Multiset.mem_singleton.mp hμ', ← Multiset.mem_singleton.mp here]
  · have whole : allC.take svc.maxResults = allC := by
      rw [List.take_of_length_le]
      rw [permC.length_eq, union.length_eq, List.length_append]
      omega
    rw [whole] at rowsC
    have perm := permC.trans union
    have mem {ν : Mapping String String} (hν : ν ∈ endpoint.solutions queryQ.body) :
        ν ∈ allC.take svc.maxResults :=
      whole.symm ▸ perm.mem_iff.mpr (List.mem_append_right _ hν)
    obtain ⟨ν, hν⟩ := List.exists_mem_of_length_pos (l := endpoint.solutions queryQ.body)
      (by omega)
    -- so one row of the first clause is empty
    have empty := memC (mem hν)
    rw [emptyQ (mem hν) hν, rowsP] at empty
    intro μ hμ
    by_contra notEmpty
    classical
    -- a row that binds something comes back twice, for both solutions of the first clause
    have twice : 2 ≤ ((endpoint.solutions queryP.body).map (returned svc headC)).count μ := by
      have count := congrArg (Multiset.count μ) same
      have present := Multiset.one_le_count_iff_mem.mpr hμ
      have absent : ((endpoint.solutions queryQ.body).map (returned svc headC)).count μ = 0 := by
        rw [List.count_eq_zero]
        intro found
        obtain ⟨ν, hν, rfl⟩ := List.mem_map.mp found
        exact notEmpty (emptyQ (mem hν) hν)
      rw [rowsC, Multiset.coe_count, (perm.map (returned svc headC)).count_eq, List.map_append,
        List.count_append, absent, Multiset.count_nsmul] at count
      have more := Nat.mul_le_mul (show 2 ≤ k by omega) present
      omega
    have every : ∀ ν ∈ endpoint.solutions queryP.body, returned svc headC ν = μ := by
      intro ν hν
      have all : ((endpoint.solutions queryP.body).map (returned svc headC)).count μ =
          ((endpoint.solutions queryP.body).map (returned svc headC)).length :=
        le_antisymm List.count_le_length (by rw [List.length_map]; omega)
      exact (List.count_eq_length.mp all _ (List.mem_map_of_mem hν)).symm
    rw [rowsP] at hμ
    exact empty_notMem_returned hμ notEmpty
      (fun ν hν => every ν (permP.mem_iff.mp (List.mem_of_mem_take hν))) empty

end Blank

section Endpoint

variable {ε : Type} {svc : ServiceEnv ε} {innerL innerR inner : ServicePattern ε} {n : Nat}
  {silent : Bool} {query : RemoteQuery ε}

/-- The rows that are read bind what the solutions bind. -/
theorem SparqlEndpoint.exists_answer (endpoint : SparqlEndpoint svc) (query : RemoteQuery ε) :
    ∃ answer, executeRemote svc query = .ok answer ∧
      ∀ μ ∈ received svc answer, ∃ ν ∈ endpoint.solutions query.body,
        ∀ v, ν v = none → μ v = none := by
  obtain ⟨head, rows, answered, -, same⟩ := endpoint.answers query
  refine ⟨(head, rows.take svc.maxResults), ?_, ?_⟩
  · rw [executeRemote, answered]
    rfl
  · intro μ hμ
    rw [received] at hμ
    split at hμ
    · cases hμ
    · obtain ⟨row, hrow, rfl⟩ := Multiset.mem_map.mp hμ
      obtain ⟨cells, hcells, rfl⟩ := List.mem_map.mp hrow
      obtain ⟨ν, hν, rfl⟩ := List.mem_map.mp (same.mem_iff.mp (List.mem_of_mem_take hcells))
      refine ⟨ν, hν, fun v free => ?_⟩
      exact rowSolution_map_of_none free

theorem SparqlEndpoint.within_clause (endpoint : SparqlEndpoint svc) :
    ∀ μ ∈ solutionsOf svc (clauseQuery inner), Mapping.Within (endpoint.inScope inner) μ := by
  obtain ⟨answer, answered, bound⟩ := endpoint.exists_answer (clauseQuery inner)
  intro μ hμ v hv
  rw [solutionsOf, answered] at hμ
  obtain ⟨ν, hν, free⟩ := bound μ hμ
  exact free v (endpoint.within inner ν hν v hv)

theorem SparqlEndpoint.within_combined (endpoint : SparqlEndpoint svc) :
    ∀ μ ∈ solutionsOf svc (combinedQuery innerL innerR),
      Mapping.Within (endpoint.inScope innerL) μ ∨ Mapping.Within (endpoint.inScope innerR) μ := by
  obtain ⟨answer, answered, bound⟩ := endpoint.exists_answer (combinedQuery innerL innerR)
  intro μ hμ
  rw [solutionsOf, answered] at hμ
  obtain ⟨ν, hν, free⟩ := bound μ hμ
  obtain left | right := List.mem_append.mp ((endpoint.union innerL innerR).mem_iff.mp hν)
  · exact .inl fun v hv => free v (endpoint.within innerL ν left v hv)
  · exact .inr fun v hv => free v (endpoint.within innerR ν right v hv)

/-- A clause that is sent alone returns its solutions, unless its columns are rejected. -/
theorem SparqlEndpoint.translateService_cases (endpoint : SparqlEndpoint svc)
    (batches : Batches svc) :
    AmbiguousQuery svc (clauseQuery inner) ∧ translateService svc inner silent n = none ∨
      ¬ AmbiguousQuery svc (clauseQuery inner) ∧
        ∃ frag m, translateService svc inner silent n = some (frag, m) ∧
          ∀ db, frag.solutions db = solutionsOf svc (clauseQuery inner) := by
  obtain ⟨allowed, healthy, local_⟩ := batches
  obtain ⟨answer, answered, -⟩ := endpoint.exists_answer (clauseQuery inner)
  have sent : translateService svc inner silent n = translateAnswer svc n answer := by
    simp only [clauseQuery] at answered
    simp [translateService, endpoint.policy, endpoint.elsewhere, allowed, healthy, local_,
      answered]
  rw [sent, AmbiguousQuery, solutionsOf, answered]
  exact translateAnswer_cases

/-- If clauses are sent together, the batch returns the solutions of the combined query. -/
theorem SparqlEndpoint.translateServiceBatched_eq (endpoint : SparqlEndpoint svc)
    (batches : Batches svc) :
    ∃ out, translateServiceBatched svc innerL innerR silent n = some out ∧
      (AmbiguousQuery svc (combinedQuery innerL innerR) ∧ out = none ∨
        ¬ AmbiguousQuery svc (combinedQuery innerL innerR) ∧ ∃ frag m, out = some (frag, m) ∧
          ∀ db, frag.solutions db = solutionsOf svc (combinedQuery innerL innerR)) := by
  obtain ⟨allowed, healthy, local_⟩ := batches
  obtain ⟨answer, answered, -⟩ := endpoint.exists_answer (combinedQuery innerL innerR)
  refine ⟨translateAnswer svc n answer, ?_, ?_⟩
  · simp [translateServiceBatched, allowed, healthy, local_, answered]
  · rw [AmbiguousQuery, solutionsOf, answered]
    exact translateAnswer_cases

theorem batches_of_some {out : Option (Fragment × Nat)}
    (h : translateServiceBatched svc innerL innerR silent n = some out) : Batches svc := by
  rw [translateServiceBatched] at h
  split at h
  · cases h
  · rename_i guard
    simpa [Batches, and_assoc] using guard

/-- The clause fills the limit, and its rows come before those of the other clause. -/
def CutTo (endpoint : SparqlEndpoint svc) (inner : ServicePattern ε)
    (combined : RemoteQuery ε) : Prop :=
  svc.maxResults ≤ (endpoint.solutions inner).length ∧
    solutionsOf svc combined = solutionsOf svc (clauseQuery inner)

/-- No rows come back, neither for a clause nor for both; or all rows that come back bind nothing,
two for each clause or as many as the limit cuts off; or a clause has one row that binds nothing,
and the other one fills the limit. -/
def Degenerate (endpoint : SparqlEndpoint svc) (innerL innerR : ServicePattern ε) : Prop :=
  let left := clauseQuery innerL
  let right := clauseQuery innerR
  let both := combinedQuery innerL innerR
  Blank svc both 0 ∧ (Blank svc left 0 ∨ Blank svc right 0) ∨
    (∃ i j, Blank svc left i ∧ Blank svc right j ∧ Blank svc both (i * j)) ∨
    Blank svc right 1 ∧ CutTo endpoint innerL both ∨ Blank svc left 1 ∧ CutTo endpoint innerR both

theorem absorbed_iff_degenerate (endpoint : SparqlEndpoint svc)
    (disjoint : (endpoint.inScope innerL).Disjoint (endpoint.inScope innerR)) :
    Absorbed svc innerL innerR ↔ Degenerate endpoint innerL innerR := by
  have union := endpoint.union innerL innerR
  constructor
  · rintro ⟨k, ⟨blank, same⟩ | ⟨blank, same⟩⟩
    · rcases endpoint.blank_or_cut k (clauseQuery innerL) (clauseQuery innerR)
        (combinedQuery innerL innerR) disjoint union blank same with
        rfl | ⟨i, blank'⟩ | ⟨rfl, fills⟩
      · exact .inl ⟨same.trans (zero_nsmul _), .inr blank⟩
      · refine .inr (.inl ⟨i, k, blank', blank, ?_⟩)
        rw [Blank, same, show solutionsOf svc (clauseQuery innerL) = _ from blank',
          Multiset.nsmul_replicate, Nat.mul_comm]
      · exact .inr (.inr (.inl ⟨blank, fills, same.trans (one_nsmul _)⟩))
    · rcases endpoint.blank_or_cut k (clauseQuery innerR) (clauseQuery innerL)
        (combinedQuery innerL innerR) disjoint.symm (union.trans List.perm_append_comm)
        blank same with rfl | ⟨i, blank'⟩ | ⟨rfl, fills⟩
      · exact .inl ⟨same.trans (zero_nsmul _), .inl blank⟩
      · refine .inr (.inl ⟨k, i, blank, blank', ?_⟩)
        rw [Blank, same, show solutionsOf svc (clauseQuery innerR) = _ from blank',
          Multiset.nsmul_replicate]
      · exact .inr (.inr (.inr ⟨blank, fills, same.trans (one_nsmul _)⟩))
  · rintro (⟨none, left | right⟩ | ⟨i, j, left, right, both⟩ | ⟨right, -, same⟩ | ⟨left, -, same⟩)
    · exact ⟨0, .inr ⟨left, none.trans (zero_nsmul _).symm⟩⟩
    · exact ⟨0, .inl ⟨right, none.trans (zero_nsmul _).symm⟩⟩
    · refine ⟨j, .inl ⟨right, both.trans ?_⟩⟩
      rw [show solutionsOf svc (clauseQuery innerL) = _ from left, Multiset.nsmul_replicate,
        Nat.mul_comm]
    · exact ⟨1, .inl ⟨right, same.trans (one_nsmul _).symm⟩⟩
    · exact ⟨1, .inr ⟨left, same.trans (one_nsmul _).symm⟩⟩

end Endpoint

/-- Each pattern for the variable of a subject has one solution. -/
def oneTripleSolutions : ServicePattern Unit → List (Mapping String String)
  | .bgp [⟨.var v, _, _⟩] => [fun w => if w = v then some "<a>" else none]
  | .union left right => oneTripleSolutions left ++ oneTripleSolutions right
  | _ => []

def oneTripleScope : ServicePattern Unit → List String
  | .bgp [⟨.var v, _, _⟩] => [v]
  | .union left right => oneTripleScope left ++ oneTripleScope right
  | _ => []

def oneTripleEnv : ServiceEnv Unit where
  policyOk := true
  allowed := true
  healthy := true
  localView := none
  graphPattern := none
  remote query := .ok (query.projection,
    (oneTripleSolutions query.body).map fun μ => query.projection.map μ)
  maxResults := 10000
  raisesErrors := false
  encodeTerm _ := 7
  ident name := name

theorem within_oneTriple (P : ServicePattern Unit) :
    ∀ μ ∈ oneTripleSolutions P, Mapping.Within (oneTripleScope P) μ := by
  fun_induction oneTripleSolutions P with
  | case1 v predicate object =>
    intro μ hμ w hw
    rw [List.mem_singleton.mp hμ]
    refine if_neg ?_
    rintro rfl
    exact hw (List.mem_singleton_self w)
  | case2 left right ihl ihr =>
    intro μ hμ w hw
    rw [oneTripleScope, List.mem_append, not_or] at hw
    obtain here | here := List.mem_append.mp hμ
    · exact ihl μ here w hw.1
    · exact ihr μ here w hw.2
  | case3 => exact fun μ hμ => absurd hμ List.not_mem_nil

def oneTripleEndpoint : SparqlEndpoint oneTripleEnv where
  solutions := oneTripleSolutions
  inScope := oneTripleScope
  within := within_oneTriple
  union _ _ := .refl _
  answers query := ⟨query.projection, _, rfl, fun _ => rfl, .refl _⟩
  policy := rfl
  elsewhere := rfl

/-- `?v <p> <o>`. -/
def subjectPattern (v : String) : ServicePattern Unit :=
  .bgp [⟨.var v, .namedNode "p", .namedNode "o"⟩]

theorem disjoint_subjects :
    (oneTripleEndpoint.inScope (subjectPattern "x")).Disjoint
      (oneTripleEndpoint.inScope (subjectPattern "y")) := by
  simp [oneTripleEndpoint, oneTripleScope, subjectPattern]

end PgRipple.Sparql
