import PgRipple.Sparql.Bgp
import PgRipple.Sparql.Merge

/-!
# Where a merge is a join

The condition of a merge asks nothing of a left `NULL`, but a right `NULL` never meets it.
Where a row on the right leaves a variable unbound that a compatible row on the left
binds, the pair is lost, the two sides cannot be exchanged, and joins cannot be regrouped.
On any other rows a merge is the join of the solutions.
-/

namespace PgRipple.Sparql

theorem readsOnly_column {aliases : List Alias} {n : Alias} {c : Col} (h : n ∈ aliases) :
    ReadsOnly aliases (column n c) := by
  intro db j j' same
  simp only [column, Joined.col, same n h]

/-- `GroundTerm`. The subject and the predicate of a ground triple are IRIs. -/
inductive GroundTerm where
  | namedNode (iri : String)
  | literal (lit : Literal)
  | triple (subject predicate : String) (object : GroundTerm)
  deriving DecidableEq, Repr

/-- `encode_ground_term`. -/
def encodeGroundTerm (env : Env) : GroundTerm → TermId
  | .namedNode iri => (env.lookupIri iri).getD 0
  | .literal lit => env.literalId lit
  | .triple s p o =>
    (env.lookupQuotedTriple ((env.lookupIri s).getD 0) ((env.lookupIri p).getD 0)
      (encodeGroundTerm env o)).getD 0

/-- `(SELECT * FROM (VALUES {rows}) AS _vi{n}({columns}))`. -/
def valuesSource (env : Env) (vars : List String)
    (bindings : List (List (Option GroundTerm))) : Source where
  rows _ := bindings.map fun row =>
    (vars.zip row).map fun cell => (.named cell.1, cell.2.map (encodeGroundTerm env))
  mentionsVp := false

/-- `translate_values`: the fragment and the next alias. -/
def translateValues (env : Env) (n : Nat) (vars : List String)
    (bindings : List (List (Option GroundTerm))) : Fragment × Nat :=
  if vars.isEmpty || bindings.isEmpty then (⟨[], [.never], []⟩, n)
  else (⟨[(.counted (n + 1), valuesSource env vars bindings)], [],
    vars.dedup.map fun v => (v, column (.counted (n + 1)) (.named v))⟩, n + 2)

/-- The alias was numbered while the counter went from `lo` to `hi`. -/
def Alias.Within (lo hi : Nat) (k : Alias) : Prop := ∃ m, k = .counted m ∧ lo ≤ m ∧ m < hi

theorem scoped_translateValues (env : Env) (n : Nat) (vars : List String)
    (bindings : List (List (Option GroundTerm))) :
    (translateValues env n vars bindings).1.Scoped ∧
      ∀ k ∈ (translateValues env n vars bindings).1.aliases,
        k.Within n (translateValues env n vars bindings).2 := by
  rw [translateValues]
  split
  · refine ⟨⟨List.nodup_nil, ?_, by simp⟩, by simp [Fragment.aliases]⟩
    intro c hc
    rw [List.mem_singleton.mp hc]
    exact fun _ _ _ _ => rfl
  · refine ⟨⟨?_, by simp, ?_⟩, ?_⟩
    · simpa [Fragment.names, Function.comp_def] using List.nodup_dedup vars
    · intro b hb
      obtain ⟨v, -, rfl⟩ := List.mem_map.mp hb
      exact readsOnly_column (List.mem_singleton_self _)
    · simp [Fragment.aliases, Alias.Within]

/-- A fragment that is translated later has later aliases. -/
theorem Fragment.apart_of_within {left right : Fragment} {lo n hi : Nat}
    (before : ∀ k ∈ left.aliases, k.Within lo n) (after : ∀ k ∈ right.aliases, k.Within n hi) :
    left.Apart right := by
  intro k hk hk'
  obtain ⟨m, rfl, -, lt⟩ := before k hk
  obtain ⟨m', same, le, -⟩ := after _ hk'
  cases same
  exact Nat.not_le_of_lt lt le

namespace Fragment

/-- The merge returns the join of the solutions, its sides may be exchanged, and it may be
regrouped with any third fragment. -/
structure JoinsWith (left right : Fragment) (db : Db) : Prop where
  join : (left.merge right).solutions db = Mapping.join (left.solutions db) (right.solutions db)
  comm : (left.merge right).solutions db = (right.merge left).solutions db
  assoc : ∀ third : Fragment, third.Scoped → left.Apart third → right.Apart third →
    ((left.merge right).merge third).solutions db = (left.merge (right.merge third)).solutions db

/-- Compatible rows bind the same vars of both fragments. -/
def BindAlike (left right : Fragment) (db : Db) : Prop :=
  ∀ μ ∈ left.solutions db, ∀ ν ∈ right.solutions db, Mapping.Compatible μ ν →
    ∀ v ∈ left.names, v ∈ right.names → (μ v = none ↔ ν v = none)

section Joins

variable {left right third : Fragment} {db : Db} {μ ν : Mapping String TermId}

theorem BindAlike.symm (h : left.BindAlike right db) : right.BindAlike left db := by
  intro ν hν μ hμ pair v hv hv'
  exact (h μ hμ ν hν pair.symm v hv' hv).symm

/-- A merge is a join unless the right side leaves something unbound. -/
theorem merge_eq_join_iff (hl : left.Scoped) (hr : right.Scoped) (apart : left.Apart right) :
    (left.merge right).solutions db = Mapping.join (left.solutions db) (right.solutions db) ↔
      ∀ μ ∈ left.solutions db, ∀ ν ∈ right.solutions db, Mapping.Compatible μ ν →
        ∀ v ∈ right.names, ν v = none → μ v = none := by
  rw [solutions_merge hl hr apart, Mapping.join, Mapping.joinOn_eq_iff]
  · refine forall₄_congr fun μ _ ν _ => forall_congr' fun pair => ?_
    exact pair.fills_iff
  · intro μ _ ν hν fills
    exact fills.compatible (within_of_mem hν)

theorem BindAlike.join (alike : left.BindAlike right db) (hl : left.Scoped) (hr : right.Scoped)
    (apart : left.Apart right) :
    (left.merge right).solutions db =
      Mapping.join (left.solutions db) (right.solutions db) := by
  refine (merge_eq_join_iff hl hr apart).mpr fun μ hμ ν hν pair v hv free => ?_
  by_cases member : v ∈ left.names
  · exact (alike μ hμ ν hν pair v member hv).mpr free
  · exact within_of_mem hμ v member

/-- Joins may be regrouped where the first two fragments bind alike, whatever the third
one binds. -/
theorem BindAlike.assoc (alike : left.BindAlike right db) (hl : left.Scoped) (hr : right.Scoped)
    (ht : third.Scoped) (apart : left.Apart right) (apart' : left.Apart third)
    (apart'' : right.Apart third) :
    ((left.merge right).merge third).solutions db =
      (left.merge (right.merge third)).solutions db := by
  have outer : (left.merge right).Apart third := by
    rw [Apart, aliases_merge, List.disjoint_append_left]
    exact ⟨apart', apart''⟩
  have outer' : left.Apart (right.merge third) := by
    rw [Apart, aliases_merge, List.disjoint_append_right]
    exact ⟨apart, apart'⟩
  rw [solutions_merge (hl.merge hr) ht outer, solutions_merge hl hr apart,
    solutions_merge hl (hr.merge ht) outer', solutions_merge hr ht apart'']
  refine Mapping.joinOn_assoc fun μ hμ ν hν ξ _ => ?_
  have names : Mapping.Fills (right.merge third).names μ (Mapping.merge ν ξ) ↔
      Mapping.Fills (right.names ++ third.names) μ (Mapping.merge ν ξ) := by
    refine forall_congr' fun v => imp_congr_left ?_
    rw [mem_names_merge ht.nodup, List.mem_append]
  rw [names]
  refine Mapping.fills_merge_iff (within_of_mem hν) fun pair v hv free => ?_
  by_cases member : v ∈ left.names
  · exact (alike μ hμ ν hν pair v member hv).mpr free
  · exact within_of_mem hμ v member

end Joins

/-- A merge is the join just if compatible rows bind the same vars of both fragments. -/
theorem joinsWith_iff (left right : Fragment) (db : Db) (hl : left.Scoped) (hr : right.Scoped)
    (apart : left.Apart right) : left.JoinsWith right db ↔ left.BindAlike right db := by
  constructor
  · intro joins μ hμ ν hν pair v hv hv'
    have fromLeft := (merge_eq_join_iff hl hr apart).mp joins.join μ hμ ν hν pair v hv'
    have swapped : (right.merge left).solutions db =
        Mapping.join (right.solutions db) (left.solutions db) := by
      rw [← joins.comm, joins.join, Mapping.join_comm]
    have fromRight := (merge_eq_join_iff hr hl apart.symm).mp swapped ν hν μ hμ pair.symm v hv
    exact ⟨fromRight, fromLeft⟩
  · intro alike
    have joined := alike.join hl hr apart
    refine ⟨joined, ?_, ?_⟩
    · rw [joined, alike.symm.join hr hl apart.symm, Mapping.join_comm]
    · intro third ht apart' apart''
      exact alike.assoc hl hr ht apart apart' apart''

end Fragment

/-- The settings of a query over the one IRI `a`. -/
def oneIri : Env where
  lookupIri iri := if iri = "a" then some 1 else none
  literalId _ := 0
  lookupQuotedTriple _ _ _ := none
  vpSource _ := .empty
  unionPredicates := some []
  serviceGraphs := []
  bnScopePrefix := "0"
  isAlphanumeric := Char.isAlphanum

/-- `VALUES (?x ?y) { (<a> UNDEF) }` and `VALUES (?x ?z) { (<a> <a>) }`. -/
theorem joinsWith_values :
    (translateValues oneIri 0 ["x", "y"] [[some (.namedNode "a"), none]]).1.JoinsWith
      (translateValues oneIri 2 ["x", "z"] [[some (.namedNode "a"), some (.namedNode "a")]]).1
      ⟨.initial, []⟩ := by
  obtain ⟨hl, before⟩ := scoped_translateValues oneIri 0 ["x", "y"] [[some (.namedNode "a"), none]]
  obtain ⟨hr, after⟩ := scoped_translateValues oneIri 2 ["x", "z"]
    [[some (.namedNode "a"), some (.namedNode "a")]]
  have apart := Fragment.apart_of_within before after
  refine (Fragment.joinsWith_iff _ _ _ hl hr apart).mpr fun μ hμ ν hν _ v hv hv' => ?_
  have x : v = "x" := by
    have both : ∀ v ∈ ["x", "y"], v ∈ ["x", "z"] → v = "x" := by decide
    exact both v hv hv'
  obtain ⟨j, hj, rfl⟩ := Multiset.mem_map.mp hμ
  obtain ⟨j', hj', rfl⟩ := Multiset.mem_map.mp hν
  cases List.mem_singleton.mp hj
  cases List.mem_singleton.mp hj'
  rw [x]
  decide

/-- `VALUES ?x { <a> }` and `VALUES ?x { UNDEF }` have one solution together. -/
theorem not_joinsWith :
    ¬ ∀ (left right : Fragment) (db : Db), left.Scoped → right.Scoped → left.Apart right →
      left.JoinsWith right db := by
  intro promised
  let left := (translateValues oneIri 0 ["x"] [[some (.namedNode "a")]]).1
  let right := (translateValues oneIri 2 ["x"] [[none]]).1
  obtain ⟨hl, before⟩ := scoped_translateValues oneIri 0 ["x"] [[some (.namedNode "a")]]
  obtain ⟨hr, after⟩ := scoped_translateValues oneIri 2 ["x"] [[none]]
  have apart : left.Apart right := Fragment.apart_of_within before after
  have joins := promised left right ⟨.initial, []⟩ hl hr apart
  have bound : left.value ⟨.initial, []⟩ [(.counted 1, [(Col.named "x", some 1)])] ∈
      left.solutions ⟨.initial, []⟩ :=
    Multiset.mem_map_of_mem _ (List.mem_singleton_self _)
  have free : right.value ⟨.initial, []⟩ [(.counted 3, [(Col.named "x", none)])] ∈
      right.solutions ⟨.initial, []⟩ :=
    Multiset.mem_map_of_mem _ (List.mem_singleton_self _)
  have unbound (v : String) :
      right.value ⟨.initial, []⟩ [(.counted 3, [(Col.named "x", none)])] v = none := by
    by_cases hv : v ∈ ["x"]
    · rw [List.mem_singleton.mp hv]
      decide
    · exact Fragment.within_value v hv
  have lost := (Fragment.merge_eq_join_iff hl hr apart).mp joins.join _ bound _ free
    (fun v => Or.inr (Or.inl (unbound v))) "x" List.mem_cons_self (unbound "x")
  revert lost
  decide

end PgRipple.Sparql
