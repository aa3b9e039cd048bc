import Mathlib.Data.Finset.Max
import PgRipple.Lib.Kosaraju
import PgRipple.Datalog.Stratify

/-!
# The components of the dependency graph

`compute_sccs` finds the strongly connected components, heads first. Every predicate that
an edge leads to is found, also one that is only aggregated and therefore is no node of
its own: the first pass reaches it from a head.

With this, `topo_sort_sccs` can fail in one way only, by a negative edge within a
component; the other two errors are never raised.
-/

namespace PgRipple.Datalog

open Storage Kosaraju

variable {edges : List Edge} {nodes : List TermId} {p q : TermId}

theorem mem_adj : q ∈ adj edges p ↔ ∃ e ∈ edges, e.from_ = p ∧ e.to_ = q := by
  simp [adj, and_assoc]

@[simp] theorem mem_radj : p ∈ radj edges q ↔ q ∈ adj edges p := by
  simp only [radj, mem_adj, List.mem_map, List.mem_filter, decide_eq_true_eq]
  constructor
  · rintro ⟨e, ⟨he, to_⟩, from_⟩
    exact ⟨e, he, from_, to_⟩
  · rintro ⟨e, he, from_, to_⟩
    exact ⟨e, ⟨he, to_⟩, from_⟩

section Search

variable {next : TermId → List TermId} {U : Finset TermId} {fuel : Nat}

theorem setOf_mem_cons (x : TermId) (visited : List TermId) :
    { y | y ∈ x :: visited } = insert x { y | y ∈ visited } := by
  ext y
  exact List.mem_cons

/-- `dfs1` leaves the nodes in finishing order. -/
theorem searches_dfs1 (closed : ∀ x ∈ U, ∀ y ∈ next x, y ∈ U) (visited stack : List TermId)
    (x : TermId) (hx : x ∈ U) (enough : Enough U fuel visited) :
    Searches (Finished next) visited stack [x] (dfs1 next fuel (visited, stack) x) := by
  induction fuel generalizing visited stack x with
  | zero => exact absurd enough (Nat.not_lt_zero _)
  | succ fuel ih =>
    rw [dfs1]
    split
    · rename_i seen
      exact ⟨[], .seen seen, (List.append_nil stack).symm, fun y => by simp⟩
    · rename_i fresh
      obtain ⟨K, found, result, visited'⟩ := searches_foldl stack (.nil next)
        (fun h h' => h.append h') ih (closed x hx) (enough.cons hx fresh)
      rw [setOf_mem_cons] at found
      refine ⟨K ++ [x], found.node fresh, ?_, fun y => ?_⟩
      · simp only [result, List.append_assoc]
      · simp only [visited', List.mem_cons, List.mem_append, List.not_mem_nil, or_false]
        tauto

/-- `dfs2` lists them as it comes to them. -/
theorem searches_dfs2 (closed : ∀ x ∈ U, ∀ y ∈ next x, y ∈ U) (visited component : List TermId)
    (x : TermId) (hx : x ∈ U) (enough : Enough U fuel visited) :
    Searches (Explored next) visited component [x] (dfs2 next fuel (visited, component) x) := by
  induction fuel generalizing visited component x with
  | zero => exact absurd enough (Nat.not_lt_zero _)
  | succ fuel ih =>
    rw [dfs2]
    split
    · rename_i seen
      exact ⟨[], .seen seen, (List.append_nil component).symm, fun y => by simp⟩
    · rename_i fresh
      obtain ⟨K, found, result, visited'⟩ := searches_foldl (component ++ [x]) (.nil next)
        (fun h h' => h.append h') ih (closed x hx) (enough.cons hx fresh)
      rw [setOf_mem_cons] at found
      have new : x ∉ { y | y ∈ visited } := fresh
      have moved : (x :: K).Perm (K ++ [x]) := (List.perm_append_singleton x K).symm
      refine ⟨x :: K, (found.node new).perm moved, ?_, fun y => ?_⟩
      · simp only [result, List.append_assoc, List.singleton_append]
      · simp only [visited', List.mem_cons]
        tauto

end Search

/-- All predicates of the graph. -/
def graphNodes (nodes : List TermId) (edges : List Edge) : Finset TermId :=
  nodes.toFinset ∪ (edges.map Edge.to_).toFinset

theorem enough_nil (nodes : List TermId) (edges : List Edge) :
    Enough (graphNodes nodes edges) (nodes.length + edges.length + 1) [] := by
  have all : (graphNodes nodes edges).card ≤ nodes.length + edges.length :=
    calc
      _ ≤ nodes.toFinset.card + (edges.map Edge.to_).toFinset.card := Finset.card_union_le _ _
      _ ≤ nodes.length + (edges.map Edge.to_).length :=
        Nat.add_le_add (List.toFinset_card_le _) (List.toFinset_card_le _)
      _ = nodes.length + edges.length := by rw [List.length_map]
  exact Nat.lt_succ_of_le ((Finset.card_filter_le _ _).trans all)

theorem to_mem_graphNodes (h : q ∈ adj edges p) : q ∈ graphNodes nodes edges := by
  obtain ⟨e, he, -, rfl⟩ := mem_adj.mp h
  exact Finset.mem_union_right _ (List.mem_toFinset.mpr (List.mem_map_of_mem he))

theorem from_mem_graphNodes (sources : ∀ e ∈ edges, e.from_ ∈ nodes) (h : q ∈ adj edges p) :
    p ∈ graphNodes nodes edges := by
  obtain ⟨e, he, rfl, -⟩ := mem_adj.mp h
  exact Finset.mem_union_left _ (List.mem_toFinset.mpr (sources e he))

/-- The first pass: the stack of `compute_sccs`. -/
def finishStack (nodes : List TermId) (edges : List Edge) : List TermId :=
  ((nodes.insertionSort (· ≤ ·)).foldl
    (dfs1 (adj edges) (nodes.length + edges.length + 1)) ([], [])).2

theorem searches_roots (edges : List Edge) {xs : List TermId} (inside : ∀ x ∈ xs, x ∈ nodes) :
    Searches (Finished (adj edges)) [] [] xs
      (xs.foldl (dfs1 (adj edges) (nodes.length + edges.length + 1)) ([], [])) := by
  refine searches_foldl [] (.nil _) (fun h h' => h.append h')
    (searches_dfs1 fun x _ y hy => to_mem_graphNodes hy) (fun x hx => ?_) (enough_nil nodes edges)
  exact Finset.mem_union_left _ (List.mem_toFinset.mpr (inside x hx))

theorem finished_finishStack (nodes : List TermId) (edges : List Edge) :
    Finished (adj edges) ∅ (nodes.insertionSort (· ≤ ·)) (finishStack nodes edges) := by
  obtain ⟨K, found, result, -⟩ :=
    searches_roots edges fun x hx => (List.mem_insertionSort (· ≤ ·)).mp hx
  have none : { y : TermId | y ∈ [] } = ∅ := by
    ext y
    simp
  rw [none] at found
  rw [finishStack, result]
  exact found

/-- One round of the second pass. -/
def collectScc (edges : List Edge) (fuel : Nat) (state : List TermId × List (List TermId))
    (node : TermId) : List TermId × List (List TermId) :=
  if node ∈ state.1 then state
  else
    let (visited, component) := dfs2 (radj edges) fuel (state.1, []) node
    (visited, if component.isEmpty then state.2 else state.2 ++ [component])

theorem computeSccs_eq (nodes : List TermId) (edges : List Edge) :
    computeSccs nodes edges = ((finishStack nodes edges).reverse.foldl
      (collectScc edges (nodes.length + edges.length + 1)) ([], [])).2 := rfl

/-- What has been collected after some of the nodes. -/
def Collected (edges : List Edge) (done : List TermId)
    (state : List TermId × List (List TermId)) : Prop :=
  Kosaraju.Components (adj edges) (radj edges) { y | y ∈ state.1 } state.2 ∧
    ∀ y ∈ done, y ∈ state.1

theorem collected_nil : Collected edges [] ([], []) := by
  refine ⟨?_, nofun⟩
  have none : { y : TermId | y ∈ [] } = ∅ := by
    ext y
    simp
  rw [none]
  exact .nil _ _

theorem Collected.step (sources : ∀ e ∈ edges, e.from_ ∈ nodes) {done rest : List TermId}
    {state : List TermId × List (List TermId)} {r : TermId} (h : Collected edges done state)
    (parts : (finishStack nodes edges).reverse = done ++ r :: rest) :
    Collected edges (done ++ [r])
      (collectScc edges (nodes.length + edges.length + 1) state r) := by
  rw [collectScc]
  split
  · rename_i seen
    refine ⟨h.1, fun y hy => ?_⟩
    obtain hy | hy := List.mem_append.mp hy
    · exact h.2 y hy
    · exact List.mem_singleton.mp hy ▸ seen
  · rename_i fresh
    have finished := finished_finishStack nodes edges
    have listed : r ∈ finishStack nodes edges := by
      rw [← List.mem_reverse, parts]
      simp
    have inside : r ∈ graphNodes nodes edges := by
      obtain ⟨x, hx, -, path⟩ := finished.sound r listed
      obtain rfl | ⟨c, -, edge, -⟩ := path.cases_tail
      · exact Finset.mem_union_left _ (List.mem_toFinset.mpr ((List.mem_insertionSort _).mp hx))
      · exact to_mem_graphNodes edge
    have closed : ∀ x ∈ graphNodes nodes edges, ∀ y ∈ radj edges x, y ∈ graphNodes nodes edges :=
      fun x _ y hy => from_mem_graphNodes sources (mem_radj.mp hy)
    obtain ⟨K, found, result, visited⟩ := searches_dfs2 closed state.1 [] r inside
      ((enough_nil nodes edges).mono nofun)
    have component (y : TermId) : y ∈ K ↔ Strong (adj edges) r y := by
      refine mem_component_iff (fun x y => mem_radj) ?_ finished parts h.2
        (fun x hx y strong => h.1.whole hx strong) fresh found
      intro x y edge
      obtain ⟨e, he, rfl, -⟩ := mem_adj.mp edge
      exact (List.mem_insertionSort _).mpr (sources e he)
    have root : r ∈ K := (component r).mpr (.refl r)
    have nonempty : ¬ K.isEmpty = true := by
      rw [List.isEmpty_iff]
      exact List.ne_nil_of_mem root
    have sets :
        { y | y ∈ (dfs2 (radj edges) (nodes.length + edges.length + 1) (state.1, []) r).1 } =
        { y | y ∈ state.1 } ∪ { y | y ∈ K } := by
      ext y
      exact visited y
    have more := h.1.concat (fun x y => mem_radj) found component
    rw [← sets] at more
    simp only [result, List.nil_append, if_neg nonempty]
    refine ⟨more, fun y hy => ?_⟩
    rw [visited]
    obtain hy | hy := List.mem_append.mp hy
    · exact .inl (h.2 y hy)
    · exact .inr (List.mem_singleton.mp hy ▸ root)

/-- `compute_sccs` finds the components of all predicates of the graph, and an edge leads
from an earlier one to a later one, if not to the same. -/
theorem components_computeSccs (sources : ∀ e ∈ edges, e.from_ ∈ nodes) :
    ∃ V : Set TermId, Kosaraju.Components (adj edges) (radj edges) V (computeSccs nodes edges) ∧
      (∀ p ∈ nodes, p ∈ V) ∧ ∀ e ∈ edges, e.to_ ∈ V := by
  have rule (rest done : List TermId) (state : List TermId × List (List TermId))
      (parts : (finishStack nodes edges).reverse = done ++ rest) (h : Collected edges done state) :
      Collected edges (done ++ rest)
        (rest.foldl (collectScc edges (nodes.length + edges.length + 1)) state) := by
    induction rest generalizing done state with
    | nil => simpa using h
    | cons r rest ih =>
      have := ih (done ++ [r]) _ (by simpa using parts) (h.step sources parts)
      simpa using this
  obtain ⟨components, all⟩ := rule (finishStack nodes edges).reverse [] ([], []) rfl collected_nil
  have finished := finished_finishStack nodes edges
  have reached (p : TermId) (hp : p ∈ finishStack nodes edges) :=
    all p (List.mem_append_right [] (List.mem_reverse.mpr hp))
  have node (p : TermId) (hp : p ∈ nodes) : p ∈ finishStack nodes edges :=
    (finished.roots p ((List.mem_insertionSort _).mpr hp)).resolve_left (Set.notMem_empty p)
  refine ⟨_, components, fun p hp => reached p (node p hp), fun e he => reached e.to_ ?_⟩
  exact (finished.closed e.from_ (node _ (sources e he)) e.to_
    (mem_adj.mpr ⟨e, he, rfl, rfl⟩)).resolve_left (Set.notMem_empty _)

/-- The greatest node that no smaller one leads to: where the last search of the first
pass starts. -/
structure LastRoot (nodes : List TermId) (edges : List Edge) (m : TermId) : Prop where
  mem : m ∈ nodes
  root : ∀ p ∈ nodes, p < m → ¬ Path (adj edges) ∅ p m
  last : ∀ q ∈ nodes, m < q → ∃ p ∈ nodes, p < q ∧ Path (adj edges) ∅ p q

theorem exists_lastRoot (edges : List Edge) (hp : p ∈ nodes) : ∃ m, LastRoot nodes edges m := by
  classical
  let roots := nodes.toFinset.filter fun m => ∀ p ∈ nodes, p < m → ¬ Path (adj edges) ∅ p m
  have nonempty : roots.Nonempty := by
    obtain ⟨m, hm, least⟩ := Finset.exists_min_image nodes.toFinset id
      ⟨p, List.mem_toFinset.mpr hp⟩
    refine ⟨m, Finset.mem_filter.mpr ⟨hm, fun q hq lt => ?_⟩⟩
    exact absurd lt (not_lt.mpr (least q (List.mem_toFinset.mpr hq)))
  obtain ⟨m, hm, greatest⟩ := Finset.exists_max_image roots id nonempty
  obtain ⟨node, root⟩ := Finset.mem_filter.mp hm
  refine ⟨m, List.mem_toFinset.mp node, root, fun q hq lt => ?_⟩
  by_contra none
  have : q ∈ roots := by
    refine Finset.mem_filter.mpr ⟨List.mem_toFinset.mpr hq, fun p hp less path => ?_⟩
    exact none ⟨p, hp, less, path⟩
  exact absurd lt (not_lt.mpr (greatest q this))

/-- A search from visited nodes changes nothing. -/
theorem foldl_dfs1_of_visited {next : TermId → List TermId} {fuel : Nat}
    {state : List TermId × List TermId} {xs : List TermId} (seen : ∀ x ∈ xs, x ∈ state.1) :
    xs.foldl (dfs1 next fuel) state = state := by
  induction xs with
  | nil => rfl
  | cons x xs ih =>
    have here : dfs1 next fuel state x = state := by
      cases fuel with
      | zero => rfl
      | succ fuel =>
        obtain ⟨visited, stack⟩ := state
        rw [dfs1, if_pos (seen x List.mem_cons_self)]
    rw [List.foldl_cons, here]
    exact ih fun y hy => seen y (List.mem_cons_of_mem x hy)

/-- A new node is left after all that the search from it finds. -/
theorem exists_dfs1_eq {next : TermId → List TermId} {fuel : Nat}
    {state : List TermId × List TermId} (new : p ∉ state.1) :
    ∃ front, (dfs1 next (fuel + 1) state p).2 = front ++ [p] := by
  obtain ⟨visited, stack⟩ := state
  rw [dfs1, if_neg new]
  exact ⟨_, rfl⟩

theorem LastRoot.exists_finishStack_eq {m : TermId} (h : LastRoot nodes edges m)
    (nodup : nodes.Nodup) : ∃ front, finishStack nodes edges = front ++ [m] := by
  have sorted := nodes.pairwise_insertionSort (· ≤ ·)
  have perm := List.perm_insertionSort (· ≤ ·) nodes
  have unique := perm.nodup_iff.mpr nodup
  obtain ⟨pre, post, parts⟩ := List.append_of_mem (perm.mem_iff.mpr h.mem)
  have below : ∀ p ∈ pre, p ∈ nodes ∧ p < m := by
    intro p hp
    rw [parts] at sorted unique
    have le := (List.pairwise_append.mp sorted).2.2 p hp m List.mem_cons_self
    refine ⟨perm.mem_iff.mp (parts ▸ List.mem_append_left _ hp), lt_of_le_of_ne le ?_⟩
    rintro rfl
    exact List.disjoint_of_nodup_append unique hp List.mem_cons_self
  have above : ∀ q ∈ post, q ∈ nodes := fun q hq =>
    perm.mem_iff.mp (parts ▸ List.mem_append_right _ (List.mem_cons_of_mem m hq))
  let search := dfs1 (adj edges) (nodes.length + edges.length + 1)
  -- the last root is new when the first pass comes to it
  obtain ⟨K, before, -, visited⟩ := searches_roots edges fun p hp => (below p hp).1
  have new : m ∉ (pre.foldl search ([], [])).1 := by
    intro seen
    have found : m ∈ K := ((visited m).mp seen).resolve_left List.not_mem_nil
    obtain ⟨p, hp, -, path⟩ := before.sound m found
    exact h.root p (below p hp).1 (below p hp).2 (path.mono (Set.empty_subset _))
  -- and afterwards there is nothing new
  have some : ∀ p ∈ pre ++ [m], p ∈ nodes := by
    intro p hp
    obtain hp | hp := List.mem_append.mp hp
    · exact (below p hp).1
    · exact List.mem_singleton.mp hp ▸ h.mem
  obtain ⟨K', after, -, visited'⟩ := searches_roots edges some
  have all : ∀ q ∈ nodes, q ∈ K' := by
    by_contra missing
    push Not at missing
    obtain ⟨q, hq, fresh⟩ := missing
    obtain ⟨q, hq, least⟩ := Finset.exists_min_image (nodes.toFinset.filter fun q => q ∉ K') id
      ⟨q, Finset.mem_filter.mpr ⟨List.mem_toFinset.mpr hq, fresh⟩⟩
    obtain ⟨node, fresh⟩ := Finset.mem_filter.mp hq
    have listed : q ∈ pre ++ m :: post := parts ▸ perm.mem_iff.mpr (List.mem_toFinset.mp node)
    have notEarly : q ∉ pre ++ [m] := fun early =>
      fresh ((after.roots q early).resolve_left List.not_mem_nil)
    have late : q ∈ post := by
      simp only [List.mem_append, List.mem_cons, List.not_mem_nil, or_false, not_or] at notEarly
      simpa [notEarly] using listed
    rw [parts] at sorted unique
    have le := List.rel_of_pairwise_cons (List.pairwise_append.mp sorted).2.1 late
    have ne : m ≠ q := by
      rintro rfl
      exact (List.nodup_cons.mp (List.nodup_append.mp unique).2.1).1 late
    obtain ⟨p, hp, lt, path⟩ := h.last q (List.mem_toFinset.mp node) (lt_of_le_of_ne le ne)
    have found : p ∈ K' := by
      by_contra unknown
      exact absurd lt
        (not_lt.mpr (least p (Finset.mem_filter.mpr ⟨List.mem_toFinset.mpr hp, unknown⟩)))
    have none : { y : TermId | y ∈ [] } = ∅ := by
      ext y
      simp
    rw [none] at after
    exact fresh (after.mem_of_path found path)
  have done : (pre ++ [m]).foldl search ([], []) = search (pre.foldl search ([], [])) m := by
    rw [List.foldl_append]
    rfl
  have stack : finishStack nodes edges = (search (pre.foldl search ([], [])) m).2 := by
    rw [finishStack, parts]
    have split : pre ++ m :: post = (pre ++ [m]) ++ post := by simp
    rw [split, List.foldl_append, foldl_dfs1_of_visited, done]
    exact fun q hq => (visited' q).mpr (.inr (all q (above q hq)))
  rw [stack]
  exact exists_dfs1_eq new

theorem prefix_foldl_collectScc (edges : List Edge) (fuel : Nat) (xs : List TermId)
    (state : List TermId × List (List TermId)) :
    state.2 <+: (xs.foldl (collectScc edges fuel) state).2 := by
  induction xs generalizing state with
  | nil => exact List.prefix_rfl
  | cons x xs ih =>
    refine List.IsPrefix.trans ?_ (ih _)
    rw [collectScc]
    split
    · exact List.prefix_rfl
    · dsimp only
      split
      · exact List.prefix_rfl
      · exact List.prefix_append _ _

/-- The component of the last root is the first. -/
theorem LastRoot.exists_computeSccs_eq {m : TermId} (h : LastRoot nodes edges m)
    (nodup : nodes.Nodup) (sources : ∀ e ∈ edges, e.from_ ∈ nodes) :
    ∃ c rest, computeSccs nodes edges = c :: rest ∧ m ∈ c := by
  obtain ⟨front, stack⟩ := h.exists_finishStack_eq nodup
  have reversed : (finishStack nodes edges).reverse = [] ++ m :: front.reverse := by simp [stack]
  let fuel := nodes.length + edges.length + 1
  let state := collectScc edges fuel ([], []) m
  have first : Collected edges [m] state := collected_nil.step sources reversed
  obtain ⟨c, hc, mem⟩ := (first.1.visited m).mp (first.2 m (List.mem_singleton_self m))
  have single : state.2 = [c] := by
    have shape : state.2 = [] ∨ ∃ c', state.2 = [c'] := by
      simp only [state, collectScc, List.not_mem_nil, if_false]
      split
      · exact .inl rfl
      · exact .inr ⟨_, rfl⟩
    obtain none | ⟨c', one⟩ := shape
    · rw [none] at hc
      cases hc
    · rw [one, List.mem_singleton] at hc
      rw [one, hc]
  obtain ⟨rest, later⟩ := prefix_foldl_collectScc edges fuel front.reverse state
  refine ⟨c, rest, ?_, mem⟩
  rw [computeSccs_eq, reversed, List.nil_append, List.foldl_cons]
  rw [single] at later
  exact later.symm

section Sorted

variable {sccs : List (List TermId)} {V : Set TermId} {i j : Nat} {c : List TermId}

theorem exists_of_predScc (h : predScc sccs p = some i) : ∃ c, sccs[i]? = some c ∧ p ∈ c := by
  have all : ∀ j, predScc sccs p = some j → ∃ c, sccs[j]? = some c ∧ p ∈ c := by
    refine List.foldlRecOn (motive := fun found => ∀ j, found = some j →
      ∃ c, sccs[j]? = some c ∧ p ∈ c) _ _ nofun ?_
    intro found old x hx j hj
    dsimp only at hj
    split at hj
    · rename_i mem
      cases hj
      exact ⟨x.1, List.mem_zipIdx_iff_getElem?.mp hx, mem⟩
    · exact old j hj
  exact all i h

theorem predScc_ne_none (hc : c ∈ sccs) (hp : p ∈ c) : predScc sccs p ≠ none := by
  have rule (l : List (List TermId × Nat)) (found : Option Nat)
      (mem : found ≠ none ∨ ∃ x ∈ l, p ∈ x.1) :
      l.foldl (fun found x => if p ∈ x.1 then some x.2 else found) found ≠ none := by
    induction l generalizing found with
    | nil => simpa using mem
    | cons x l ih =>
      apply ih
      by_cases here : p ∈ x.1
      · exact .inl (by simp [here])
      · simpa [here] using mem
  obtain ⟨i, hi⟩ := List.mem_iff_getElem?.mp hc
  exact rule _ none (.inr ⟨(c, i), List.mem_zipIdx_iff_getElem?.mpr hi, hp⟩)

theorem eq_of_mem_of_disjoint (disjoint : sccs.Pairwise List.Disjoint) {c' : List TermId}
    (hi : sccs[i]? = some c) (hj : sccs[j]? = some c') (hp : p ∈ c) (hp' : p ∈ c') : i = j := by
  obtain ⟨lt_i, rfl⟩ := List.getElem?_eq_some_iff.mp hi
  obtain ⟨lt_j, rfl⟩ := List.getElem?_eq_some_iff.mp hj
  obtain lt | same | lt := Nat.lt_trichotomy i j
  · exact (List.pairwise_iff_getElem.mp disjoint i j lt_i lt_j lt hp hp').elim
  · exact same
  · exact (List.pairwise_iff_getElem.mp disjoint j i lt_j lt_i lt hp' hp).elim

/-- Each predicate is in one component, and `pred_scc` names it. -/
theorem predScc_eq_some_iff (disjoint : sccs.Pairwise List.Disjoint) :
    predScc sccs p = some i ↔ ∃ c, sccs[i]? = some c ∧ p ∈ c := by
  constructor
  · exact exists_of_predScc
  · rintro ⟨c, hi, hp⟩
    obtain ⟨j, hj⟩ := Option.ne_none_iff_exists'.mp
      (predScc_ne_none (List.mem_of_getElem? hi) hp)
    obtain ⟨c', hj', hp'⟩ := exists_of_predScc hj
    rw [hj, eq_of_mem_of_disjoint disjoint hi hj' hp hp']

variable (h : Kosaraju.Components (adj edges) (radj edges) V sccs)

include h in
theorem exists_predScc (hp : p ∈ V) :
    ∃ i c, predScc sccs p = some i ∧ sccOf sccs p = i ∧ sccs[i]? = some c ∧ p ∈ c := by
  obtain ⟨c, hc, mem⟩ := (h.visited p).mp hp
  obtain ⟨i, hi⟩ := List.mem_iff_getElem?.mp hc
  have found := (predScc_eq_some_iff h.disjoint).mpr ⟨c, hi, mem⟩
  exact ⟨i, c, found, by rw [sccOf, found, Option.getD_some], hi, mem⟩

include h in
theorem sccOf_eq_iff (hp : p ∈ V) (hq : q ∈ V) :
    sccOf sccs p = sccOf sccs q ↔ Strong (adj edges) p q := by
  obtain ⟨i, c, -, hi, at_i, mem⟩ := exists_predScc h hp
  obtain ⟨j, c', -, hj, at_j, mem'⟩ := exists_predScc h hq
  rw [hi, hj, ← h.strong c (List.mem_of_getElem? at_i) p mem q]
  constructor
  · rintro rfl
    rw [at_i] at at_j
    cases at_j
    exact mem'
  · intro together
    exact eq_of_mem_of_disjoint h.disjoint at_i at_j together mem'

include h in
/-- Edges lead to the same component or to a later one. -/
theorem sccOf_le (hp : p ∈ V) (hq : q ∈ V) (edge : q ∈ adj edges p) :
    sccOf sccs p ≤ sccOf sccs q := by
  obtain ⟨i, c, -, hi, at_i, mem⟩ := exists_predScc h hp
  obtain ⟨j, c', -, hj, at_j, mem'⟩ := exists_predScc h hq
  rw [hi, hj]
  by_contra lt
  obtain ⟨hi', rfl⟩ := List.getElem?_eq_some_iff.mp at_i
  obtain ⟨hj', rfl⟩ := List.getElem?_eq_some_iff.mp at_j
  exact List.pairwise_iff_getElem.mp h.sorted j i hj' hi' (by omega) p mem q mem' edge

include h in
theorem lt_of_mem_sccAdj (ends : ∀ e ∈ edges, e.from_ ∈ V ∧ e.to_ ∈ V) {edges' : List Edge}
    (subset : ∀ e ∈ edges', e ∈ edges) (hj : j ∈ sccAdj sccs edges' i) : i < j := by
  obtain ⟨e, he, rfl, ne, rfl⟩ := mem_sccAdj.mp hj
  have he := subset e he
  have le := sccOf_le h (ends e he).1 (ends e he).2 (mem_adj.mpr ⟨e, he, rfl, rfl⟩)
  omega

/-- A search along growing numbers finds larger numbers only. -/
theorem lt_of_searchScc {next : Nat → List Nat} {to_ m : Nat} {fuel : Nat}
    {queue visited : List Nat}
    (grows : ∀ i j, j ∈ next i → i < j) (above : ∀ i ∈ queue, m ≤ i)
    (found : searchScc next to_ fuel queue visited = true) : m < to_ := by
  induction fuel generalizing queue visited with
  | zero => cases found
  | succ fuel ih =>
    cases queue with
    | nil => cases found
    | cons i rest =>
      rw [searchScc] at found
      have le := above i List.mem_cons_self
      split at found
      · rename_i last
        exact le.trans_lt (grows i to_ last)
      · refine ih (fun j hj => ?_) found
        obtain hj | hj := List.mem_append.mp hj
        · exact above j (List.mem_cons_of_mem i hj)
        · exact le.trans (grows i j (List.mem_filter.mp hj).1).le

include h in
theorem checkAcross_eq_ok (ends : ∀ e ∈ edges, e.from_ ∈ V ∧ e.to_ ∈ V) :
    checkAcross sccs edges = .ok () := by
  refine Fold.forM_eq_ok fun src _ => Fold.forM_eq_ok fun dst hdst => ?_
  have forward : src < dst :=
    lt_of_mem_sccAdj h ends (fun e he => (List.mem_filter.mp he).1) hdst
  have acyclic : ¬ sccCanReach dst src sccs.length (sccAdj sccs edges) = true := by
    intro reaches
    rw [sccCanReach] at reaches
    split at reaches
    · cases reaches
    · have back := lt_of_searchScc (m := dst) (fun i j => lt_of_mem_sccAdj h ends fun _ he => he)
        (by simp) reaches
      omega
  rw [if_neg acyclic]

include h in
theorem length_topoOrder_sccAdj (ends : ∀ e ∈ edges, e.from_ ∈ V ∧ e.to_ ∈ V) :
    (Kahn.topoOrder sccs.length (sccAdj sccs edges)).length = sccs.length := by
  refine Kahn.length_topoOrder (fun u => List.nodup_dedup _) ?_ id
    (fun i j => lt_of_mem_sccAdj h ends fun _ he => he)
  intro u v hv
  obtain ⟨e, he, -, -, rfl⟩ := mem_sccAdj.mp hv
  obtain ⟨i, c, -, same, at_i, -⟩ := exists_predScc h (ends e he).2
  rw [same]
  exact (List.getElem?_eq_some_iff.mp at_i).1

include h in
/-- Sorting fails for a negative edge within a component and for nothing else. -/
theorem topoSortSccs_eq (ends : ∀ e ∈ edges, e.from_ ∈ V ∧ e.to_ ∈ V) :
    topoSortSccs sccs edges = (checkSccs sccs edges).bind fun _ =>
      .ok fun p => (predScc sccs p).map (Kahn.topoOrder sccs.length (sccAdj sccs edges)).idxOf := by
  have complete := length_topoOrder_sccAdj h ends
  rw [topoSortSccs]
  simp only [checkAcross_eq_ok h ends, complete, ne_eq, not_true_eq_false, if_false]
  rfl

include h in
theorem checkSccs_isOk_iff (ends : ∀ e ∈ edges, e.from_ ∈ V ∧ e.to_ ∈ V) :
    checkSccs sccs edges = .ok () ↔
      ∀ e ∈ edges, e.negative = true → ¬ Strong (adj edges) e.from_ e.to_ := by
  constructor
  · intro checked e he negative strong
    have ok := Fold.of_forM checked he
    have same := (sccOf_eq_iff h (ends e he).1 (ends e he).2).mpr strong
    rw [if_pos ⟨same, negative⟩] at ok
    cases ok
  · intro apart
    refine Fold.forM_eq_ok fun e he => ?_
    rw [if_neg]
    rintro ⟨same, negative⟩
    exact apart e he negative ((sccOf_eq_iff h (ends e he).1 (ends e he).2).mp same)

end Sorted

end PgRipple.Datalog
