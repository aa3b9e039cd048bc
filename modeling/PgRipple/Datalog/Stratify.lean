import PgRipple.Lib.Fold
import PgRipple.Lib.Kahn
import PgRipple.Datalog.Model

/-!
# Stratification

`stratify` builds the graph of predicate dependencies, computes its strongly
connected components, refuses programs with a negative dependency inside a
component, and sorts the components. An edge goes from a head to a body predicate,
so the components come out with heads first: stratum `0` holds the rules that
depend on all others. Nothing below relies on that order.

`exists_stratification` says what acceptance is worth: predicates can be given
levels as `Stratification` asks.

Hash sets are lists without duplicates. Searches that the source writes as loops or
recursions over a growing visited set take the number of edges and nodes as fuel,
which exceeds the number of nodes they can visit.
-/

namespace PgRipple.Datalog

open Storage

/-- A dependency of a head predicate on a body predicate. -/
structure Edge where
  from_ : TermId
  to_ : TermId
  negative : Bool
  deriving DecidableEq, Repr

/-- The dependency that a body literal contributes; aggregates count as negative. -/
def dependency (h : TermId) : BodyLiteral → Option Edge
  | .positive a => a.pred?.map fun p => ⟨h, p, false⟩
  | .negated a => a.pred?.map fun p => ⟨h, p, true⟩
  | .aggregate a => a.atom.pred?.map fun p => ⟨h, p, true⟩
  | _ => none

/-- `build_dependency_graph`. -/
def buildDependencyGraph (rules : List Rule) : List Edge :=
  rules.flatMap fun r =>
    match r.headPred with
    | some h => r.body.filterMap (dependency h)
    | none => []

/-- `collect_predicates`: aggregates do not count. -/
def collectPredicates (rules : List Rule) : List TermId :=
  (rules.flatMap fun r => r.headPred.toList ++ r.body.filterMap fun
    | .positive a | .negated a => a.pred?
    | _ => none).dedup

/-- The targets of the edges from a node. -/
def adj (edges : List Edge) (node : TermId) : List TermId :=
  (edges.filter fun e => e.from_ = node).map Edge.to_

/-- The sources of the edges to a node. -/
def radj (edges : List Edge) (node : TermId) : List TermId :=
  (edges.filter fun e => e.to_ = node).map Edge.from_

/-- `dfs1`, on the visited nodes and the stack of finished ones. -/
def dfs1 (next : TermId → List TermId) :
    (fuel : Nat) → List TermId × List TermId → TermId → List TermId × List TermId
  | 0, state, _ => state
  | fuel + 1, (visited, stack), node =>
    if node ∈ visited then (visited, stack)
    else
      let (visited, stack) := (next node).foldl (dfs1 next fuel) (node :: visited, stack)
      (visited, stack ++ [node])

/-- `dfs2`, on the visited nodes and the component. -/
def dfs2 (next : TermId → List TermId) :
    (fuel : Nat) → List TermId × List TermId → TermId → List TermId × List TermId
  | 0, state, _ => state
  | fuel + 1, (visited, component), node =>
    if node ∈ visited then (visited, component)
    else (next node).foldl (dfs2 next fuel) (node :: visited, component ++ [node])

/-- `compute_sccs`: nodes by number in the first pass, by reverse finishing order in
the second. -/
def computeSccs (nodes : List TermId) (edges : List Edge) : List (List TermId) :=
  let fuel := nodes.length + edges.length + 1
  let (_, finishStack) :=
    (nodes.insertionSort (· ≤ ·)).foldl (dfs1 (adj edges) fuel) ([], [])
  let (_, sccs) := finishStack.reverse.foldl (fun (visited, sccs) node =>
    if node ∈ visited then (visited, sccs)
    else
      let (visited, component) := dfs2 (radj edges) fuel (visited, []) node
      (visited, if component.isEmpty then sccs else sccs ++ [component])) ([], [])
  sccs

def predName (p : TermId) : String := s!"pred_{p}"

/-- One edge of the search in `find_positive_path`; the error is the path found. -/
def visitPositive (end_ : TermId) (scc : List TermId) (current : TermId) (path : List String)
    (state : List (TermId × List String) × List TermId) (e : Edge) :
    Except (List String) (List (TermId × List String) × List TermId) :=
  let (queue, visited) := state
  if e.from_ = current ∧ e.negative = false ∧ e.to_ ∈ scc then
    if e.to_ = end_ then .error path
    else if e.to_ ∈ visited then .ok (queue, visited)
    else .ok (queue ++ [(e.to_, path ++ [predName e.to_])], e.to_ :: visited)
  else .ok (queue, visited)

/-- The loop of `find_positive_path`. -/
def searchPositive (end_ : TermId) (scc : List TermId) (edges : List Edge) :
    (fuel : Nat) → List (TermId × List String) → List TermId → Option (List String)
  | 0, _, _ => none
  | _ + 1, [], _ => none
  | fuel + 1, (current, path) :: rest, visited =>
    match edges.foldlM (visitPositive end_ scc current path) (rest, visited) with
    | .error path => some path
    | .ok (queue, visited) => searchPositive end_ scc edges fuel queue visited

/-- `find_positive_path`: the names of the nodes between. -/
def findPositivePath (start end_ : TermId) (edges : List Edge) (scc : List TermId) :
    Option (List String) :=
  if start = end_ then some []
  else searchPositive end_ scc edges (edges.length + 2) [(start, [])] [start]

/-- `trace_negation_cycle_in_scc`. -/
def traceNegationCycleInScc (scc : List TermId) (edges : List Edge) : String :=
  match edges.find? fun e => e.negative ∧ e.from_ ∈ scc ∧ e.to_ ∈ scc with
  | some ne =>
    match findPositivePath ne.to_ ne.from_ edges scc with
    | some chain =>
      let first := predName ne.from_
      " → ".intercalate ([first, "¬" ++ predName ne.to_] ++ chain ++ [first])
    | none => predName ne.from_ ++ " → ¬" ++ predName ne.to_ ++ " → … → " ++ predName ne.from_
  | none => "[" ++ ", ".intercalate (scc.map predName) ++ "]"

/-- `pred_scc`: a later component replaces an earlier one. -/
def predScc (sccs : List (List TermId)) (p : TermId) : Option Nat :=
  sccs.zipIdx.foldl (fun found (scc, i) => if p ∈ scc then some i else found) none

/-- The component of an end of an edge. -/
def sccOf (sccs : List (List TermId)) (p : TermId) : Nat := (predScc sccs p).getD 0

/-- `scc_adj`, or only its negative part. -/
def sccAdj (sccs : List (List TermId)) (edges : List Edge) (src : Nat) : List Nat :=
  ((edges.filter fun e => sccOf sccs e.from_ = src ∧ sccOf sccs e.to_ ≠ src).map
    fun e => sccOf sccs e.to_).dedup

/-- A negative edge within a component is an error. -/
def checkSccs (sccs : List (List TermId)) (edges : List Edge) : Except String Unit :=
  edges.forM fun e =>
    if sccOf sccs e.from_ = sccOf sccs e.to_ ∧ e.negative then
      .error ("datalog: unstratifiable negation cycle: " ++
        traceNegationCycleInScc (sccs.getD (sccOf sccs e.from_) []) edges)
    else .ok ()

/-- The loop of `scc_can_reach`. -/
def searchScc (next : Nat → List Nat) (to_ : Nat) : (fuel : Nat) → List Nat → List Nat → Bool
  | 0, _, _ => false
  | _ + 1, [], _ => false
  | fuel + 1, cur :: rest, visited =>
    if to_ ∈ next cur then true
    else
      let new := (next cur).filter fun v => v ∉ visited
      searchScc next to_ fuel (rest ++ new) (new ++ visited)

/-- `scc_can_reach`. -/
def sccCanReach (from_ to_ n : Nat) (next : Nat → List Nat) : Bool :=
  if from_ = to_ then false else searchScc next to_ (n + 1) [from_] [from_]

/-- The second check: a negative edge to a component that leads back. -/
def checkAcross (sccs : List (List TermId)) (edges : List Edge) : Except String Unit :=
  let names (i : Nat) := "|".intercalate ((sccs.getD i []).map predName)
  (List.range sccs.length).forM fun src =>
    (sccAdj sccs (edges.filter Edge.negative) src).forM fun dst =>
      if sccCanReach dst src sccs.length (sccAdj sccs edges) then
        .error ("datalog: unstratifiable negation cycle: [" ++ names src ++ "] → ¬[" ++ names dst ++
          "] → … → [" ++ names src ++ "]")
      else .ok ()

/-- `topo_sort_sccs`: the stratum of each predicate. -/
def topoSortSccs (sccs : List (List TermId)) (edges : List Edge) :
    Except String (TermId → Option Nat) := do
  checkSccs sccs edges
  checkAcross sccs edges
  let topoOrder := Kahn.topoOrder sccs.length (sccAdj sccs edges)
  if topoOrder.length ≠ sccs.length then
    .error "cyclic dependency in SCC DAG (bug in stratifier)"
  else .ok fun p => (predScc sccs p).map topoOrder.idxOf

/-- A stratum of the program. -/
structure Stratum where
  rules : List Rule
  isRecursive : Bool
  derivedPredicates : List TermId

/-- The check DL-AGG-01 for one rule. -/
def checkAggregates (r : Rule) : Except String Unit :=
  match r.headPred with
  | none => .ok ()
  | some h => do
    let hasBodyAgg := r.body.any fun
      | .aggregate _ => true
      | _ => false
    if r.isRecursive h && hasBodyAgg then
      .error (s!"PT511: aggregation in recursive rule head is not supported; rule predicate {h}" ++
        " appears in both the head and a body aggregate literal; use a two-step rule: first" ++
        " derive the base facts, then aggregate in a non-recursive rule")
    else
      r.body.forM fun
        | .aggregate a =>
          if a.atom.pred? = some h then
            .error ("PT511: DL-AGG-01: aggregation in recursive rule head is not supported; the" ++
              s!" aggregate body atom references the head predicate {h}; this creates a recursive"
                ++
              " aggregation cycle that produces incorrect results")
          else .ok ()
        | _ => .ok ()

/-- The rules of each stratum; constraint rules go to stratum `0`. -/
def strataRules (rules : List Rule) (predStratum : TermId → Option Nat) (maxStratum : Nat) :
    List (List Rule) :=
  let byStratum := (List.range (maxStratum + 1)).map fun i =>
    rules.filter fun r => (r.headPred.bind predStratum).getD 0 = i
  byStratum.modify 0 fun first => rules.foldl (fun acc r =>
    if r.head.isNone && acc.all (fun r' => r'.ruleText ≠ r.ruleText) then acc ++ [r] else acc) first

/-- `stratify`. -/
def stratify (rules : List Rule) : Except String (List Stratum) := do
  if rules.isEmpty then return []
  rules.forM checkAggregates
  let edges := buildDependencyGraph rules
  let sccs := computeSccs (collectPredicates rules) edges
  let predStratum ← topoSortSccs sccs edges
  let maxStratum := (sccs.flatten.filterMap predStratum).foldl max 0
  let isRecursive (p : TermId) : Bool :=
    edges.any (fun e => e.from_ = p && e.to_ = p && !e.negative) ||
      (predScc sccs p).any fun i => 1 < (sccs.getD i []).length
  return ((strataRules rules predStratum maxStratum).filter fun rs => !rs.isEmpty).map fun rs =>
    let derived := derivedPredIds rs
    ⟨rs, derived.any isRecursive, derived⟩

section Accepted

variable {rules : List Rule} {sccs : List (List TermId)} {edges : List Edge}

theorem predScc_lt {p : TermId} {i : Nat} (h : predScc sccs p = some i) : i < sccs.length := by
  have all : ∀ j, predScc sccs p = some j → j < sccs.length := by
    refine List.foldlRecOn (motive := fun found => ∀ j, found = some j → j < sccs.length) _ _
      (fun j hj => by cases hj) ?_
    intro found old x hx j hj
    dsimp only at hj
    split at hj
    · cases hj
      exact List.snd_lt_of_mem_zipIdx hx
    · exact old j hj
  exact all i h

/-- Components are numbered, if there are any. -/
theorem sccOf_lt (p : TermId) (nonempty : 0 < sccs.length) : sccOf sccs p < sccs.length := by
  unfold sccOf
  cases h : predScc sccs p with
  | none => exact nonempty
  | some i => exact predScc_lt h

theorem pos_of_sccOf_ne {p p' : TermId} (ne : sccOf sccs p ≠ sccOf sccs p') : 0 < sccs.length := by
  by_contra none
  have empty : sccs = [] := List.length_eq_zero_iff.mp (by omega)
  subst empty
  exact ne rfl

theorem mem_sccAdj {src dst : Nat} :
    dst ∈ sccAdj sccs edges src ↔
      ∃ e ∈ edges, sccOf sccs e.from_ = src ∧ sccOf sccs e.to_ ≠ src ∧ sccOf sccs e.to_ = dst := by
  simp only [sccAdj, List.mem_dedup, List.mem_map, List.mem_filter, decide_eq_true_eq]
  constructor
  · intro ⟨e, ⟨he, from_, ne⟩, to_⟩
    exact ⟨e, he, from_, ne, to_⟩
  · intro ⟨e, he, from_, ne, to_⟩
    exact ⟨e, ⟨he, from_, ne⟩, to_⟩

/-- The level of a predicate: components sorted later are lower. -/
def sccLevel (sccs : List (List TermId)) (edges : List Edge) (p : TermId) : Nat :=
  sccs.length - (Kahn.topoOrder sccs.length (sccAdj sccs edges)).idxOf (sccOf sccs p)

/-- Sorted components respect all edges, and negative edges strictly. -/
theorem sccLevel_of_topoSortSccs {predStratum : TermId → Option Nat}
    (h : topoSortSccs sccs edges = .ok predStratum) {e : Edge} (he : e ∈ edges) :
    sccLevel sccs edges e.to_ ≤ sccLevel sccs edges e.from_ ∧
      (e.negative = true → sccLevel sccs edges e.to_ < sccLevel sccs edges e.from_) := by
  obtain ⟨_, checked, h⟩ := Fold.bind_eq_ok.mp h
  obtain ⟨_, _, h⟩ := Fold.bind_eq_ok.mp h
  dsimp only at h
  split at h
  · cases h
  · rename_i complete
    rw [not_not] at complete
    by_cases same : sccOf sccs e.from_ = sccOf sccs e.to_
    · -- within a component edges are positive
      have ok := Fold.of_forM checked he
      split at ok
      · cases ok
      · rename_i fine
        refine ⟨by simp [sccLevel, same], ?_⟩
        intro negative
        exact absurd ⟨same, negative⟩ fine
    · have nonempty := pos_of_sccOf_ne same
      have nodup (u : Nat) : (sccAdj sccs edges u).Nodup := List.nodup_dedup _
      have bound (u v : Nat) (hv : v ∈ sccAdj sccs edges u) : v < sccs.length := by
        obtain ⟨e', _, _, _, rfl⟩ := mem_sccAdj.mp hv
        exact sccOf_lt _ nonempty
      have before := Kahn.idxOf_lt_idxOf nodup bound complete (sccOf_lt e.from_ nonempty)
        (mem_sccAdj.mpr ⟨e, he, rfl, Ne.symm same, rfl⟩)
      have last : (Kahn.topoOrder sccs.length (sccAdj sccs edges)).idxOf (sccOf sccs e.to_) ≤
          (Kahn.topoOrder sccs.length (sccAdj sccs edges)).length := List.idxOf_le_length
      unfold sccLevel
      omega

theorem mem_buildDependencyGraph {r : Rule} (hr : r ∈ rules) {h : TermId} (hh : r.headPred = some h)
    {l : BodyLiteral} (hl : l ∈ r.body) {e : Edge} (depends : dependency h l = some e) :
    e ∈ buildDependencyGraph rules := by
  refine List.mem_flatMap.mpr ⟨r, hr, ?_⟩
  rw [hh]
  exact List.mem_filterMap.mpr ⟨l, hl, depends⟩

/-- Accepted programs have a stratification. -/
theorem exists_stratification {strata : List Stratum} (h : stratify rules = .ok strata) :
    ∃ level, Stratification rules level := by
  unfold stratify at h
  split at h
  · rename_i empty
    rw [List.isEmpty_iff] at empty
    subst empty
    exact ⟨fun _ => 0, fun r hr => absurd hr List.not_mem_nil⟩
  · obtain ⟨_, _, h⟩ := Fold.bind_eq_ok.mp h
    obtain ⟨predStratum, sorted, _⟩ := Fold.bind_eq_ok.mp h
    refine ⟨sccLevel (computeSccs (collectPredicates rules) (buildDependencyGraph rules))
      (buildDependencyGraph rules), ?_⟩
    intro r hr p hp l hl
    have edge (e : Edge) (depends : dependency p l = some e) :=
      sccLevel_of_topoSortSccs sorted (mem_buildDependencyGraph hr hp hl depends)
    cases l with
    | positive a =>
      intro p' hp'
      exact (edge ⟨p, p', false⟩ (by simp [dependency, hp'])).1
    | negated a =>
      intro p' hp'
      exact (edge ⟨p, p', true⟩ (by simp [dependency, hp'])).2 rfl
    | aggregate a =>
      intro p' hp'
      exact (edge ⟨p, p', true⟩ (by simp [dependency, hp'])).2 rfl
    | compare l op r => trivial
    | stringBuiltin b => trivial
    | assign v l op r => trivial
    | temporalFilter f => trivial

end Accepted

end PgRipple.Datalog
