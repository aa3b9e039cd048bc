import PgRipple.Lib.Saturate
import PgRipple.Sparql.Pattern
import PgRipple.Storage.Reachable

/-!
# `sh:SPARQLRule`

A rule is a `CONSTRUCT` query whose rows are inserted into the target graph. The rules run
one after the other in the order of `sh:order`, round after round, until a round reports no
triple. A round reports the rows that the queries return, whether or not the inserts add
anything.

The rows of a query over a store are an arbitrary function of the store here, so that the
results hold for every `WHERE` clause.
-/

namespace PgRipple.Shacl

open Storage Sparql

/-- A parsed `CONSTRUCT` query, with the variables and rows of the SQL for its pattern. -/
structure RuleQuery where
  template : List TriplePattern
  vars : List String
  solutions : Store → List ResultRow

/-- `SparqlRule`. The query is missing if the text is not one or is no `CONSTRUCT` query. -/
structure SparqlRule where
  query : Option RuleQuery
  order : Int

section Rows

variable (ids : TermIds) (vars : List String) (row : ResultRow)

/-- The id of an IRI or of the value of a variable. -/
def termPatternId : TermPattern → Option TermId
  | .namedNode iri => some (ids.iri iri)
  | .var v => row.get? vars v
  | _ => none

def predicatePatternId : NamedNodePattern → Option TermId
  | .namedNode iri => some (ids.iri iri)
  | .var v => row.get? vars v

/-- Quoted triples are built if their subject and predicate are IRIs. -/
def objectPatternId : TermPattern → Option TermId
  | .triple (.namedNode s) (.namedNode p) o =>
    (termPatternId ids vars row o).map (ids.quoted (ids.iri s) (ids.iri p))
  | .triple _ _ _ => none
  | o => termPatternId ids vars row o

def tripleRow (t : TriplePattern) : Option (TermId × TermId × TermId) := do
  let s ← termPatternId ids vars row t.subject
  let p ← predicatePatternId ids vars row t.predicate
  let o ← objectPatternId ids vars row t.object
  some (s, p, o)

end Rows

/-- `sparql_construct_rows`. -/
def sparqlConstructRows (ids : TermIds) (query : RuleQuery) (st : Store) :
    List (TermId × TermId × TermId) :=
  (query.solutions st).flatMap fun row => query.template.filterMap (tripleRow ids query.vars row)

section Execution

variable (ids : TermIds) (session : Session) (target : TermId)

/-- `execute_sparql_rule`: the number of rows and the store. -/
def executeSparqlRule (query : RuleQuery) (st : Store) : Int × Store :=
  let rows := sparqlConstructRows ids query st
  if rows.isEmpty then (0, st)
  else rows.foldl
    (fun acc row =>
      (acc.1 + 1,
    (Store.insertEncodedTriple session ⟨row.1, row.2.1, row.2.2, target⟩ acc.2).2)) (0, st)

/-- One pass over the rules. -/
def runRules (rules : List SparqlRule) (st : Store) : Int × Store :=
  rules.foldl
    (fun acc rule =>
      match rule.query with
      | none => acc
      | some query =>
        let (materialised, st) := executeSparqlRule ids session target query acc.2
        (acc.1 + materialised, st))
    (0, st)

/-- The passes that are left of `max_iter`; `none` is the error of a last pass with rows. -/
def iterateRules (rules : List SparqlRule) : Nat → Int → Store → Option (Int × Store)
  | 0, totalNew, st => some (totalNew, st)
  | left + 1, totalNew, st =>
    let (newThisRound, st) := runRules ids session target rules st
    let totalNew := totalNew + newThisRound
    if newThisRound = 0 then some (totalNew, st)
    else if left = 0 then none
    else iterateRules rules left totalNew st

/-- `rules.sort_by_key(|r| r.order)`. -/
def sortByOrder (rules : List SparqlRule) : List SparqlRule :=
  rules.insertionSort (·.order ≤ ·.order)

/-- `execute_sparql_rules`. -/
def executeSparqlRules (maxIter : Nat) (rules : List SparqlRule) (st : Store) :
    Option (Int × Store) :=
  if rules.isEmpty then some (0, st)
  else iterateRules ids session target (sortByOrder rules) maxIter 0 st

/-- The triples that a rule returns, in the target graph. -/
def SparqlRule.quads (rule : SparqlRule) (st : Store) : List Quad :=
  match rule.query with
  | none => []
  | some query =>
    (sparqlConstructRows ids query st).map fun row => ⟨row.1, row.2.1, row.2.2, target⟩

/-- The rules derive nothing that the store does not show. -/
def Closed (rules : List SparqlRule) (st : Store) : Prop :=
  ∀ rule ∈ rules, ∀ q ∈ rule.quads ids target st, st.Visible q

/-- The store after `n` passes over the rules. -/
def storeAfter (rules : List SparqlRule) (n : Nat) (st : Store) : Store :=
  (fun st => (runRules ids session target rules st).2)^[n] st

/-- Some pass before the last one allowed leaves nothing to add. -/
def Converges (maxIter : Nat) (rules : List SparqlRule) (st : Store) : Prop :=
  ∃ k < maxIter, ∀ q, (storeAfter ids session target (sortByOrder rules) (k + 1) st).Visible q ↔
    (storeAfter ids session target (sortByOrder rules) k st).Visible q

/-- The store shows the least set of triples that contains the triples of `st` and is closed
under the rules, and `count` of them are new. -/
structure LeastClosure (rules : List SparqlRule) (st : Store) (count : Int) (st' : Store) :
    Prop where
  contains : ∀ q, st.Visible q → st'.Visible q
  closed : Closed ids target rules st'
  least : ∀ other : Store, other.Layout → (∀ q, st.Visible q → other.Visible q) →
    Closed ids target rules other → ∀ q, st'.Visible q → other.Visible q
  count_eq : count = ({q | st'.Visible q} \ {q | st.Visible q}).ncard

/-- The run returns with the least closure if repeated passes come to rest in time. -/
def ReachesFixpoint (maxIter : Nat) (rules : List SparqlRule) (st : Store) : Prop :=
  Converges ids session target maxIter rules st →
    ∃ count st', executeSparqlRules ids session target maxIter rules st = some (count, st') ∧
      LeastClosure ids target rules st count st'

def insertQuads (quads : List Quad) (st : Store) : Store :=
  quads.foldl (fun st q => (Store.insertEncodedTriple session q st).2) st

/-- The triples that the rules of a pass return, and the store after it. -/
def passReport : List SparqlRule → Store → List Quad × Store
  | [], st => ([], st)
  | rule :: rules, st =>
    let quads := rule.quads ids target st
    let later := passReport rules (insertQuads session quads st)
    (quads ++ later.1, later.2)

end Execution

variable {ids : TermIds} {session : Session} {target : TermId} {rules : List SparqlRule}
  {st : Store}

theorem layout_insertQuads (h : st.Layout) (quads : List Quad) :
    (insertQuads session quads st).Layout :=
  List.foldlRecOn quads _ h fun _ kept _ _ => kept.insertEncodedTriple

theorem visible_insertQuads (h : st.Layout) (quads : List Quad) (q : Quad) :
    (insertQuads session quads st).Visible q ↔ st.Visible q ∨ q ∈ quads := by
  induction quads generalizing st with
  | nil => simp [insertQuads]
  | cons q' quads ih =>
    have rest := ih (h.insertEncodedTriple : (Store.insertEncodedTriple session q' st).2.Layout)
    rw [h.visible_insertEncodedTriple, or_assoc, ← List.mem_cons] at rest
    exact rest

/-- The loop over the rows counts them and inserts them. -/
theorem executeSparqlRule_eq (query : RuleQuery) (order : Int) (st : Store) :
    executeSparqlRule ids session target query st =
      ((((SparqlRule.mk (some query) order).quads ids target st).length : Int),
        insertQuads session ((SparqlRule.mk (some query) order).quads ids target st) st) := by
  have loop (rows : List (TermId × TermId × TermId)) (n : Int) (st : Store) :
      rows.foldl (fun acc row => (acc.1 + 1,
        (Store.insertEncodedTriple session ⟨row.1, row.2.1, row.2.2, target⟩ acc.2).2)) (n, st) =
      (n + rows.length, insertQuads session
        (rows.map fun row => ⟨row.1, row.2.1, row.2.2, target⟩) st) := by
    induction rows generalizing n st with
    | nil => simp [insertQuads]
    | cons row rows ih =>
      rw [List.foldl_cons, ih]
      simp only [insertQuads, List.map_cons, List.foldl_cons, List.length_cons, Prod.mk.injEq,
        and_true]
      omega
  unfold executeSparqlRule
  simp only [SparqlRule.quads, List.length_map]
  split
  · rename_i empty
    simp [List.isEmpty_iff.mp empty, insertQuads]
  · rw [loop, Int.zero_add]

/-- A pass counts the triples of its report. -/
theorem runRules_eq (rules : List SparqlRule) (st : Store) :
    runRules ids session target rules st =
      (((passReport ids session target rules st).1.length : Int),
        (passReport ids session target rules st).2) := by
  have loop (n : Int) (st : Store) :
      rules.foldl (fun acc rule =>
        match rule.query with
        | none => acc
        | some query =>
          let (materialised, st) := executeSparqlRule ids session target query acc.2
          (acc.1 + materialised, st)) (n, st) =
      (n + (passReport ids session target rules st).1.length,
        (passReport ids session target rules st).2) := by
    induction rules generalizing n st with
    | nil => simp [passReport]
    | cons rule rules ih =>
      obtain ⟨query, order⟩ := rule
      rw [List.foldl_cons]
      cases query with
      | none => simpa [passReport, SparqlRule.quads, insertQuads] using ih n st
      | some query =>
        simp only [executeSparqlRule_eq query order]
        rw [ih]
        simp only [passReport, List.length_append, Prod.mk.injEq, and_true]
        omega
  rw [runRules, loop, Int.zero_add]

theorem passReport_fst_eq_nil_iff :
    (passReport ids session target rules st).1 = [] ↔
      ∀ rule ∈ rules, rule.quads ids target st = [] := by
  induction rules with
  | nil => simp [passReport]
  | cons rule rules ih =>
    rw [passReport, List.append_eq_nil_iff, List.forall_mem_cons]
    refine and_congr_right ?_
    intro silent
    rw [silent]
    exact ih

/-- A pass shows what it reports, and nothing else is new. -/
theorem adds_passReport (rules : List SparqlRule) :
    Saturate.Adds (passReport ids session target rules) Store.Layout
      (fun st => {q | st.Visible q}) where
  keeps st h := by
    induction rules generalizing st with
    | nil => exact h
    | cons rule rules ih => exact ih _ (layout_insertQuads h _)
  facts_round st h := by
    induction rules generalizing st with
    | nil => simp [passReport]
    | cons rule rules ih =>
      have later := ih _ (@layout_insertQuads session _ h (rule.quads ids target st))
      rw [passReport, later]
      ext q
      simp [visible_insertQuads h, or_assoc]
  quiet st silent := by
    induction rules with
    | nil => rfl
    | cons rule rules ih =>
      rw [passReport, List.append_eq_nil_iff] at silent
      obtain ⟨none, silent⟩ := silent
      rw [none] at silent
      rw [passReport, none]
      exact ih silent

/-- The passes are a saturation loop that counts its reports. -/
theorem iterateRules_eq {left : Nat} (more : 0 < left) (totalNew : Int) (st : Store) :
    iterateRules ids session target rules left totalNew st =
      (Saturate.saturate (passReport ids session target rules) left st).map
        fun r => (totalNew + r.1.length, r.2) := by
  induction left generalizing totalNew st with
  | zero => exact absurd more (Nat.lt_irrefl 0)
  | succ left ih =>
    rw [iterateRules, Saturate.saturate, runRules_eq]
    by_cases silent : (passReport ids session target rules st).1 = []
    · simp [silent]
    · have some_row : ((passReport ids session target rules st).1.length : Int) ≠ 0 := by
        simpa using silent
      simp only [if_neg silent, if_neg some_row]
      cases left with
      | zero => simp [Saturate.saturate]
      | succ left =>
        rw [if_neg (Nat.succ_ne_zero left), ih (Nat.succ_pos left), Option.map_map]
        congr 1
        funext r
        simp only [Function.comp_apply, List.length_append, Prod.mk.injEq, and_true]
        omega

@[simp] theorem mem_sortByOrder {rule : SparqlRule} : rule ∈ sortByOrder rules ↔ rule ∈ rules :=
  List.mem_insertionSort _

theorem executeSparqlRules_eq {maxIter : Nat} (pos : 0 < maxIter) (st : Store) :
    executeSparqlRules ids session target maxIter rules st =
      (Saturate.saturate (passReport ids session target (sortByOrder rules)) maxIter st).map
        fun r => ((r.1.length : Int), r.2) := by
  rw [executeSparqlRules]
  split
  · rename_i empty
    obtain ⟨left, rfl⟩ := Nat.exists_eq_succ_of_ne_zero pos.ne'
    simp [List.isEmpty_iff.mp empty, sortByOrder, Saturate.saturate, passReport]
  · simp [iterateRules_eq pos]

theorem storeAfter_eq (n : Nat) (st : Store) :
    storeAfter ids session target rules n st =
      (Saturate.rounds (passReport ids session target rules) n st).2 := by
  induction n generalizing st with
  | zero => rfl
  | succ n ih =>
    have later := ih (runRules ids session target rules st).2
    rw [storeAfter, Function.iterate_succ_apply]
    rw [storeAfter] at later
    rw [later, Saturate.rounds, runRules_eq]

variable {maxIter : Nat}

/-- What the rules return in the first `n` passes. -/
def returned (ids : TermIds) (session : Session) (target : TermId) (rules : List SparqlRule)
    (n : Nat) (st : Store) : List Quad :=
  (Saturate.rounds (passReport ids session target (sortByOrder rules)) n st).1

/-- After `n` passes the rules return nothing, and before that they only returned triples that
were missing, each of them once, and that no closed store can do without. -/
structure OnlyMissing (ids : TermIds) (session : Session) (target : TermId)
    (rules : List SparqlRule) (n : Nat) (st : Store) : Prop where
  silent : ∀ rule ∈ rules,
    rule.quads ids target (storeAfter ids session target (sortByOrder rules) n st) = []
  nodup : (returned ids session target rules n st).Nodup
  missing : ∀ q ∈ returned ids session target rules n st, ¬ st.Visible q
  needed : ∀ other : Store, other.Layout → (∀ q, st.Visible q → other.Visible q) →
    Closed ids target rules other → ∀ q ∈ returned ids session target rules n st, other.Visible q

/-- A larger store has all the solutions of a smaller one. -/
def SparqlRule.Growing (rule : SparqlRule) : Prop :=
  ∀ query ∈ rule.query, ∀ st st' : Store, st.Layout → st'.Layout →
    (∀ q, st.Visible q → st'.Visible q) → query.solutions st ⊆ query.solutions st'

variable (ids target) in
theorem SparqlRule.Growing.quads_subset {rule : SparqlRule} (growing : rule.Growing)
    {st st' : Store} (h : st.Layout) (h' : st'.Layout) (more : ∀ q, st.Visible q → st'.Visible q) :
    rule.quads ids target st ⊆ rule.quads ids target st' := by
  obtain ⟨query, order⟩ := rule
  cases query with
  | none => exact List.Subset.refl _
  | some query =>
    intro q hq
    simp only [SparqlRule.quads, sparqlConstructRows, List.mem_map, List.mem_flatMap] at hq ⊢
    obtain ⟨triple, ⟨row, solution, instantiated⟩, same⟩ := hq
    exact ⟨triple, ⟨row, growing query rfl st st' h h' more solution, instantiated⟩, same⟩

theorem visible_storeAfter (h : st.Layout) (n : Nat) (q : Quad) :
    (storeAfter ids session target (sortByOrder rules) n st).Visible q ↔
      st.Visible q ∨ q ∈ returned ids session target rules n st := by
  have facts := (@adds_passReport ids session target (sortByOrder rules)).facts_rounds n h
  rw [storeAfter_eq]
  exact Set.ext_iff.mp facts q

theorem silent_iff (n : Nat) :
    (passReport ids session target (sortByOrder rules)
        (storeAfter ids session target (sortByOrder rules) n st)).1 = [] ↔
      ∀ rule ∈ rules,
        rule.quads ids target (storeAfter ids session target (sortByOrder rules) n st) = [] := by
  simp only [passReport_fst_eq_nil_iff, mem_sortByOrder]

/-- The run returns after a pass without rows, with the rows of the passes before it. -/
theorem executeSparqlRules_eq_some_iff (pos : 0 < maxIter) {r : Int × Store} :
    executeSparqlRules ids session target maxIter rules st = some r ↔
      ∃ i < maxIter, (∀ rule ∈ rules, rule.quads ids target
          (storeAfter ids session target (sortByOrder rules) i st) = []) ∧
        r = (((returned ids session target rules i st).length : Int),
          storeAfter ids session target (sortByOrder rules) i st) := by
  rw [executeSparqlRules_eq pos, Option.map_eq_some_iff]
  simp only [(adds_passReport (sortByOrder rules)).saturate_eq_some_iff, ← storeAfter_eq,
    silent_iff]
  constructor
  · rintro ⟨reports, ⟨i, lt, silent, rfl⟩, same⟩
    refine ⟨i, lt, silent, ?_⟩
    rw [← same, storeAfter_eq, returned]
  · rintro ⟨i, lt, silent, rfl⟩
    refine ⟨_, ⟨i, lt, silent, rfl⟩, ?_⟩
    rw [storeAfter_eq, returned]

/-- Where the rules have become silent, the least closure asks for the other conditions. -/
theorem leastClosure_iff (h : st.Layout) {i : Nat} (silent : ∀ rule ∈ rules,
      rule.quads ids target (storeAfter ids session target (sortByOrder rules) i st) = []) :
    LeastClosure ids target rules st (returned ids session target rules i st).length
        (storeAfter ids session target (sortByOrder rules) i st) ↔
      OnlyMissing ids session target rules i st := by
  have shown := @visible_storeAfter ids session target rules _ h i
  have new : {q | (storeAfter ids session target (sortByOrder rules) i st).Visible q} =
      {q | st.Visible q} ∪ {q | q ∈ returned ids session target rules i st} := Set.ext shown
  have counted := @Saturate.ncard_new_eq_length_iff _ {q | st.Visible q}
    (returned ids session target rules i st)
  rw [← new] at counted
  constructor
  · intro least
    obtain ⟨nodup, missing⟩ := counted.mp (by exact_mod_cast least.count_eq.symm)
    refine ⟨silent, nodup, missing, ?_⟩
    intro other layout contains closed q hq
    exact least.least other layout contains closed q ((shown q).mpr (.inr hq))
  · intro only
    refine ⟨fun q hq => (shown q).mpr (.inl hq), ?_, ?_, ?_⟩
    · intro rule mem q hq
      rw [silent rule mem] at hq
      cases hq
    · intro other layout contains closed q hq
      cases (shown q).mp hq with
      | inl old => exact contains q old
      | inr new => exact only.needed other layout contains closed q new
    · exact_mod_cast (counted.mpr ⟨only.nodup, only.missing⟩).symm

theorem reachesFixpoint_iff_onlyMissing (h : st.Layout) :
    ReachesFixpoint ids session target maxIter rules st ↔
      (Converges ids session target maxIter rules st →
        ∃ i < maxIter, OnlyMissing ids session target rules i st) := by
  refine imp_congr_right ?_
  rintro ⟨k, lt, -⟩
  have pos : 0 < maxIter := by omega
  constructor
  · rintro ⟨count, st', result, least⟩
    obtain ⟨i, lt, silent, same⟩ := (executeSparqlRules_eq_some_iff pos).mp result
    obtain ⟨rfl, rfl⟩ := Prod.mk.inj same
    exact ⟨i, lt, (leastClosure_iff h silent).mp least⟩
  · rintro ⟨i, lt, only⟩
    have result := (@executeSparqlRules_eq_some_iff _ session _ _ _ _ pos _).mpr
      ⟨i, lt, only.silent, rfl⟩
    exact ⟨_, _, result, (leastClosure_iff h only.silent).mpr only⟩

/-- Rules whose solutions grow with the store are never silent later if they are not so at the
start, and then the inserts of a pass are what a later pass returns again. -/
theorem reachesFixpoint_iff_silent (h : st.Layout) (growing : ∀ rule ∈ rules, rule.Growing) :
    ReachesFixpoint ids session target maxIter rules st ↔
      (Converges ids session target maxIter rules st →
        ∀ rule ∈ rules, rule.quads ids target st = []) := by
  rw [reachesFixpoint_iff_onlyMissing h]
  refine imp_congr_right ?_
  rintro ⟨k, lt, -⟩
  have adds := @adds_passReport ids session target (sortByOrder rules)
  constructor
  · rintro ⟨i, -, only⟩
    have quiet := (@silent_iff _ session _ _ _ i).mpr only.silent
    rw [storeAfter_eq] at quiet
    have start := adds.quiet_of_quiet_rounds ?_ h quiet
    · simpa only [passReport_fst_eq_nil_iff, mem_sortByOrder] using start
    · intro small large layout layout' more none
      rw [passReport_fst_eq_nil_iff] at none ⊢
      intro rule mem
      have subset := (growing rule (mem_sortByOrder.mp mem)).quads_subset ids target
        layout layout' more
      rw [none rule mem] at subset
      exact List.subset_nil.mp subset
  · intro silent
    have none : returned ids session target rules 0 st = [] := rfl
    refine ⟨0, by omega, silent, ?_, ?_, ?_⟩
    · rw [none]
      exact List.nodup_nil
    · rw [none]
      exact fun q hq => absurd hq List.not_mem_nil
    · rw [none]
      exact fun _ _ _ _ q hq => absurd hq List.not_mem_nil

variable (ids target) in
/-- The rule returns each triple once and none that is there, and what it returns for a store is
there in a larger one or still returned. -/
def SparqlRule.Guarded (rule : SparqlRule) : Prop :=
  ∀ st : Store, st.Layout → (rule.quads ids target st).Nodup ∧
    ∀ q ∈ rule.quads ids target st, ¬ st.Visible q ∧
      ∀ st' : Store, st'.Layout → (∀ q, st.Visible q → st'.Visible q) →
        st'.Visible q ∨ q ∈ rule.quads ids target st'

theorem fresh_passReport {needed : Set Quad}
    (fresh : ∀ rule ∈ rules, ∀ st : Store, st.Layout → {q | st.Visible q} ⊆ needed →
      Saturate.Fresh {q | st.Visible q} needed (rule.quads ids target st))
    (h : st.Layout) (within : {q | st.Visible q} ⊆ needed) :
    Saturate.Fresh {q | st.Visible q} needed (passReport ids session target rules st).1 := by
  induction rules generalizing st with
  | nil => exact .nil
  | cons rule rules ih =>
    obtain ⟨here, others⟩ := List.forall_mem_cons.mp fresh
    have first := here st h within
    have later := ih others (@layout_insertQuads session _ h (rule.quads ids target st))
    have shown : {q | (insertQuads session (rule.quads ids target st) st).Visible q} =
        {q | st.Visible q} ∪ {q | q ∈ rule.quads ids target st} :=
      Set.ext (visible_insertQuads h _)
    rw [shown] at later
    exact first.append (later (Set.union_subset within first.within))

/-- Such rules return in all passes together what is missing, and stop when nothing is. -/
theorem reachesFixpoint_of_guarded (h : st.Layout)
    (guarded : ∀ rule ∈ rules, rule.Guarded ids target) :
    ReachesFixpoint ids session target maxIter rules st := by
  rw [reachesFixpoint_iff_onlyMissing h]
  rintro ⟨k, lt, rest⟩
  have adds := @adds_passReport ids session target (sortByOrder rules)
  -- what every closed store above the initial one shows
  let needed : Set Quad := {q | ∀ other : Store, other.Layout →
    (∀ q, st.Visible q → other.Visible q) → Closed ids target rules other → other.Visible q}
  have fresh (s : Store) (hs : s.Layout) (within : {q | s.Visible q} ⊆ needed) :
      Saturate.Fresh {q | s.Visible q} needed
        (passReport ids session target (sortByOrder rules) s).1 := by
    refine fresh_passReport (fun rule mem s hs within => ?_) hs within
    have mem := mem_sortByOrder.mp mem
    obtain ⟨nodup, returned⟩ := guarded rule mem s hs
    refine ⟨nodup, fun q hq => (returned q hq).1, fun q hq other layout contains closed => ?_⟩
    obtain there | again := (returned q hq).2 other layout
      fun q' shown => within shown other layout contains closed
    · exact there
    · exact closed rule mem q again
  have start : {q | st.Visible q} ⊆ needed := fun q shown _ _ contains _ => contains q shown
  have all := adds.fresh_rounds fresh k h start
  refine ⟨k, lt, ?_, all.nodup, all.missing,
    fun other layout contains closed q hq => all.within q hq other layout contains closed⟩
  -- the next pass adds nothing, so it returned nothing
  have layout : (storeAfter ids session target (sortByOrder rules) k st).Layout := by
    rw [storeAfter_eq]
    exact adds.rounds_inv k h
  have report := fresh _ layout fun q shown =>
    ((visible_storeAfter h k q).mp shown).elim (fun old => start old) (all.within q)
  refine (silent_iff k).mp (List.eq_nil_iff_forall_not_mem.mpr fun q hq => ?_)
  refine report.missing q hq ((rest q).mp ?_)
  rw [storeAfter, Function.iterate_succ_apply', runRules_eq]
  exact (Set.ext_iff.mp (adds.facts_round _ layout) q).mpr (.inr hq)

/-- The run reaches the fixpoint if and only if the rules, where they come to rest in time, only
ever return triples that are missing. Rules that filter out what is there do. For rules whose
solutions grow with the store, it means that they return nothing at all on the initial store. -/
theorem executeSparqlRules_reachesFixpoint_iff (ids : TermIds) (session : Session)
    (target : TermId) (maxIter : Nat) (rules : List SparqlRule) {st : Store} (h : st.Layout) :
    (ReachesFixpoint ids session target maxIter rules st ↔
        (Converges ids session target maxIter rules st →
          ∃ i < maxIter, OnlyMissing ids session target rules i st)) ∧
      ((∀ rule ∈ rules, rule.Growing) →
        (ReachesFixpoint ids session target maxIter rules st ↔
          (Converges ids session target maxIter rules st →
            ∀ rule ∈ rules, rule.quads ids target st = []))) ∧
      ((∀ rule ∈ rules, rule.Guarded ids target) →
        ReachesFixpoint ids session target maxIter rules st) :=
  ⟨reachesFixpoint_iff_onlyMissing h, fun growing => reachesFixpoint_iff_silent h growing,
    fun guarded => reachesFixpoint_of_guarded h guarded⟩

/-- `<ann> <parent> <peter>`, by the lengths of the IRIs. -/
def annParentPeter : Quad := ⟨3, 6, 5, 0⟩

def annRelativePeter : Quad := ⟨3, 8, 5, 0⟩

/-- `CONSTRUCT { <ann> <relative> <peter> } WHERE { … }` for a pattern without variables. -/
def relativeRule (holds : Store → Bool) : SparqlRule where
  query := some
    { template := [⟨.namedNode "ann", .namedNode "relative", .namedNode "peter"⟩]
      vars := []
      solutions := fun st => if holds st then [[]] else [] }
  order := 0

/-- `WHERE { <ann> <parent> <peter> }`. -/
def plainRule : SparqlRule := relativeRule fun st => st.Visible annParentPeter

/-- `WHERE { <ann> <parent> <peter> FILTER NOT EXISTS { <ann> <relative> <peter> } }`. -/
def guardedRule : SparqlRule :=
  relativeRule fun st => st.Visible annParentPeter ∧ ¬ st.Visible annRelativePeter

def parentStore : Store := Store.run [.insertEncodedTriple 0 annParentPeter] Store.initial

theorem layout_parentStore : parentStore.Layout :=
  Store.layout_initial.apply (.insertEncodedTriple 0 annParentPeter)

theorem quads_relativeRule (holds : Store → Bool) (st : Store) :
    (relativeRule holds).quads idsByLength 0 st = if holds st then [annRelativePeter] else [] := by
  simp only [relativeRule, SparqlRule.quads, sparqlConstructRows]
  split <;> rfl

theorem executeSparqlRules_reachesFixpoint_guardedRule :
    ReachesFixpoint idsByLength 0 0 100 [guardedRule] parentStore := by
  refine (executeSparqlRules_reachesFixpoint_iff idsByLength 0 0 100 [guardedRule]
    layout_parentStore).2.2 ?_
  intro rule mem st _
  rw [List.mem_singleton.mp mem, guardedRule, quads_relativeRule]
  split
  · rename_i holds
    obtain ⟨parent, missing⟩ : st.Visible annParentPeter ∧ ¬ st.Visible annRelativePeter := by
      simpa using holds
    refine ⟨List.nodup_singleton _, fun q hq => ?_⟩
    rw [List.mem_singleton.mp hq]
    refine ⟨missing, fun st' _ more => ?_⟩
    rw [quads_relativeRule]
    by_cases there : st'.Visible annRelativePeter <;> simp [there, more _ parent]
  · exact ⟨List.nodup_nil, nofun⟩

/-- Every pass returns the row that the first one inserted, until the run gives up. -/
theorem not_executeSparqlRules_reachesFixpoint :
    ¬ ∀ (ids : TermIds) (session : Session) (target : TermId) (maxIter : Nat)
      (rules : List SparqlRule) (st : Store), st.Layout →
        ReachesFixpoint ids session target maxIter rules st := by
  intro all
  have growing : ∀ rule ∈ [plainRule], rule.Growing := by
    intro rule mem query hquery st st' _ _ more
    rw [List.mem_singleton.mp mem] at hquery
    cases hquery
    intro row hrow
    by_cases holds : st.Visible annParentPeter
    · simpa [holds, more annParentPeter holds] using hrow
    · simp [holds] at hrow
  have reached := all idsByLength 0 0 100 [plainRule] parentStore layout_parentStore
  rw [reachesFixpoint_iff_silent layout_parentStore growing] at reached
  have converges : Converges idsByLength 0 0 100 [plainRule] parentStore := by
    refine ⟨1, by decide, ?_⟩
    intro q
    have first : returned idsByLength 0 0 [plainRule] 1 parentStore = [annRelativePeter] := by
      decide
    have second : returned idsByLength 0 0 [plainRule] 2 parentStore =
        [annRelativePeter, annRelativePeter] := by decide
    rw [visible_storeAfter layout_parentStore, visible_storeAfter layout_parentStore, first, second]
    simp
  have silent := reached converges plainRule List.mem_cons_self
  rw [plainRule, quads_relativeRule] at silent
  exact absurd silent (by decide)

end PgRipple.Shacl
