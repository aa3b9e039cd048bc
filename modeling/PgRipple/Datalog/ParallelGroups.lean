import PgRipple.Datalog.Syntax
import PgRipple.Lib.DisjointSets
import PgRipple.Lib.Kahn
import Mathlib.Data.List.Sort

/-!
# Parallel groups of a stratum

`partition_into_parallel_groups` collects the rules with a constant head predicate by
that predicate, merges the collections that mention each other's predicates with a
union-find structure, and puts all other rules into one more group. The groups are then
sorted by a run of Kahn's algorithm.

Several hash maps are iterated on the way, and an unstable sort is used; `Choices` are
the orders that this leaves open. A search for directed cycles only writes to the log
and is left out.
-/

namespace PgRipple.Datalog

/-- The atom of a literal whose predicate counts as read. -/
def BodyLiteral.atom? : BodyLiteral → Option Atom
  | .positive a => some a
  | .negated a => some a
  | .aggregate a => some a.atom
  | _ => none

/-- The constant predicates that a body mentions. -/
def Rule.mentionedPreds (r : Rule) : List TermId :=
  r.body.filterMap fun lit => lit.atom?.bind Atom.pred?

namespace ParallelGroups

/-- `body_derived_preds`. -/
def bodyDerivedPreds (r : Rule) (derivedSet : List TermId) : List TermId :=
  r.mentionedPreds.filter fun p => p ∈ derivedSet

/-- `head_groups`: the rules for one predicate. -/
def headGroup (rules : List Rule) (p : TermId) : List Rule :=
  rules.filter fun r => r.headPred = some p

/-- `var_pred_rules`: constraints and rules with a variable head predicate. -/
def varPredRules (rules : List Rule) : List Rule := rules.filter fun r => r.headPred = none

/-- `depends_on`: the other derived predicates that the rules for a predicate mention. -/
def dependsOn (rules : List Rule) (headPred : TermId) : List TermId :=
  (((headGroup rules headPred).flatMap fun r =>
    bodyDerivedPreds r (derivedPredIds rules)).filter fun p => p ≠ headPred).dedup

/-- `ParallelGroup`. -/
structure ParallelGroup where
  rules : List Rule
  derivedPredicates : List TermId

/-- `ParallelAnalysis`. -/
structure ParallelAnalysis where
  groups : List ParallelGroup
  parallelGroups : Nat
  maxConcurrent : Nat

/-- What hash maps and the unstable sort leave open. -/
structure Choices (rules : List Rule) where
  /-- The keys of `head_groups`. -/
  preds : List TermId
  preds_perm : preds.Perm (derivedPredIds rules)
  /-- The keys of `depends_on`. -/
  heads : List TermId
  heads_perm : heads.Perm (derivedPredIds rules)
  /-- The set under one key of `depends_on`. -/
  deps : TermId → List TermId
  deps_perm : ∀ p, (deps p).Perm (dependsOn rules p)
  /-- The values of `components`. -/
  values : List (List TermId) → List (List TermId)
  values_perm : ∀ l, (values l).Perm l
  /-- `sort_unstable_by_key`. -/
  sort : (Nat → Int) → List Nat → List Nat
  sort_perm : ∀ key l, (sort key l).Perm l
  sort_sorted : ∀ key l, (sort key l).Pairwise fun i j => key i ≤ key j

/-- `UnionFind`, of union by rank. -/
structure UnionFind where
  parent : TermId → TermId
  rank : TermId → Nat

namespace UnionFind

/-- `UnionFind::new`. -/
def new : UnionFind := ⟨id, fun _ => 0⟩

/-- `UnionFind::union`. -/
def union (fuel : Nat) (uf : UnionFind) (pair : TermId × TermId) : Option UnionFind :=
  (DisjointSets.findBoth fuel uf.parent pair.1 pair.2).map fun (rx, ry, parent) =>
    if rx = ry then { uf with parent := parent }
    else if uf.rank rx < uf.rank ry then { uf with parent := Function.update parent rx ry }
    else if uf.rank rx > uf.rank ry then { uf with parent := Function.update parent ry rx }
    else
      { parent := Function.update parent ry rx
        rank := Function.update uf.rank rx (uf.rank rx + 1) }

end UnionFind

/-- The pairs that are united, in the order of the two nested loops. -/
def edges {rules : List Rule} (choices : Choices rules) : List (TermId × TermId) :=
  choices.heads.flatMap fun headPred => (choices.deps headPred).map fun dep => (headPred, dep)

/-- Append a predicate to the entry of its root. -/
def push (root p : TermId) : List (TermId × List TermId) → List (TermId × List TermId)
  | [] => [(root, [p])]
  | (key, preds) :: rest =>
    if key = root then (key, preds ++ [p]) :: rest else (key, preds) :: push root p rest

/-- `components`: the predicates by their root. -/
def gather (fuel : Nat) : List TermId → (parent : TermId → TermId) →
    (components : List (TermId × List TermId)) → Option (List (TermId × List TermId))
  | [], _, components => some components
  | p :: preds, parent, components =>
    (DisjointSets.find fuel parent p).bind fun (root, parent) =>
      gather fuel preds parent (push root p components)

/-- The group of some head predicates. -/
def groupOf (rules : List Rule) (predIds : List TermId) : ParallelGroup :=
  { rules := predIds.flatMap (headGroup rules), derivedPredicates := predIds }

/-- The groups before they are sorted, with all other rules in the last one. -/
def unsorted (rules : List Rule) (values : List (List TermId)) : List ParallelGroup :=
  if varPredRules rules = [] then values.map (groupOf rules)
  else values.map (groupOf rules) ++ [{ rules := varPredRules rules, derivedPredicates := [] }]

/-- The predicates derived by any group. -/
def allDerived (groups : List ParallelGroup) : List TermId :=
  groups.flatMap ParallelGroup.derivedPredicates

/-- Group `g` produces a predicate that group `g'` consumes. -/
def produces (derived : List TermId) (g g' : ParallelGroup) : Bool :=
  g.derivedPredicates.any fun p => p ∈ g'.rules.flatMap fun r => bodyDerivedPreds r derived

/-- `adj`. -/
def adj (groups : List ParallelGroup) (i : Nat) : List Nat :=
  (List.range groups.length).filter fun j =>
    match groups[i]?, groups[j]? with
    | some g, some g' => i ≠ j && produces (allDerived groups) g g'
    | _, _ => false

/-- The key by which groups that become ready together are sorted. -/
def sortKey (groups : List ParallelGroup) (i : Nat) : Int :=
  ((groups[i]?.map ParallelGroup.derivedPredicates).getD []).min?.getD (2 ^ 63 - 1)

/-- `order`; every round takes one group from the queue. -/
def order (arrange : List Nat → List Nat) (groups : List ParallelGroup) : List Nat :=
  (Kahn.runBy arrange (adj groups) groups.length
    (Kahn.startBy arrange groups.length (adj groups))).order

/-- `topological_sort_groups`; no index occurs twice in the order. -/
def topologicalSortGroups (sort : (Nat → Int) → List Nat → List Nat) (groups : List ParallelGroup) :
    List ParallelGroup :=
  if groups.length ≤ 1 then groups
  else if (order (sort (sortKey groups)) groups).length < groups.length then groups
  else (order (sort (sortKey groups)) groups).filterMap fun i => groups[i]?

/-- `partition_into_parallel_groups`. -/
def partitionIntoParallelGroups (rules : List Rule) (choices : Choices rules)
    (parallelWorkers : Int) : Option ParallelAnalysis :=
  if rules = [] then some ⟨[], 0, 0⟩
  else do
    let fuel := (edges choices).length + 1
    let uf ← (edges choices).foldlM (UnionFind.union fuel) .new
    let components ← gather fuel choices.preds uf.parent []
    let groups := unsorted rules (choices.values (components.map Prod.snd))
    let groups := topologicalSortGroups choices.sort groups
    some
      { groups := groups
        parallelGroups := groups.length
        maxConcurrent :=
          if parallelWorkers ≤ 0 then 1 else min groups.length parallelWorkers.toNat }

/-- No two rules of the groups have the same constant head predicate, and a rule of one of
them with a constant head mentions no predicate that the other derives. -/
structure Apart (g g' : ParallelGroup) : Prop where
  heads : ∀ r ∈ g.rules, ∀ r' ∈ g'.rules, ∀ p, r.headPred = some p → r'.headPred ≠ some p
  independent : ∀ r ∈ g.rules, ∀ r' ∈ g'.rules, ∀ p q, r.headPred = some p →
    r'.headPred = some q → p ∉ r'.mentionedPreds ∧ q ∉ r.mentionedPreds

/-- A rule without a constant head in `g'` mentions a predicate that `g` derives. -/
def Feeds (g g' : ParallelGroup) : Prop :=
  ∃ r ∈ g.rules, ∃ r' ∈ g'.rules, ∃ p, r.headPred = some p ∧ r'.headPred = none ∧
    p ∈ r'.mentionedPreds

/-- A partition of the rules into groups, in an order in which they may run. -/
structure Partitioned (rules : List Rule) (groups : List ParallelGroup) : Prop where
  perm : (groups.flatMap ParallelGroup.rules).Perm rules
  apart : groups.Pairwise Apart
  uniform : ∀ g ∈ groups, (∀ r ∈ g.rules, r.headPred ≠ none) ∨ ∀ r ∈ g.rules, r.headPred = none
  ordered : groups.Pairwise fun g g' => ¬ Feeds g' g

theorem Apart.symm {g g' : ParallelGroup} (h : Apart g g') : Apart g' g where
  heads := by
    intro r hr r' hr' p head head'
    exact h.heads r' hr' r hr p head' head
  independent := by
    intro r hr r' hr' p q head head'
    exact (h.independent r' hr' r hr q p head' head).symm

section Rules

variable {rules : List Rule} {keys : List TermId} {p : TermId} {r : Rule}

@[simp] theorem mem_headGroup : r ∈ headGroup rules p ↔ r ∈ rules ∧ r.headPred = some p := by
  rw [headGroup, List.mem_filter, decide_eq_true_eq]

/-- The head groups of different predicates take different rules. -/
theorem flatMap_headGroup_perm (nodup : keys.Nodup) : (keys.flatMap (headGroup rules)).Perm
    (rules.filter fun r => r.headPred.any fun p => p ∈ keys) := by
  induction keys with
  | nil =>
    have none : (rules.filter fun r => r.headPred.any fun p => p ∈ []) = [] := by
      rw [List.filter_eq_nil_iff]
      intro r _
      simp
    rw [none]
    exact .nil
  | cons q keys ih =>
    obtain ⟨fresh, nodup⟩ := List.nodup_cons.mp nodup
    have first : headGroup rules q = (rules.filter fun r => r.headPred.any fun p => p ∈ q
        :: keys).filter
        fun r => r.headPred = some q := by
      rw [List.filter_filter, headGroup]
      apply List.filter_congr
      intro r _
      cases head : r.headPred with
      | none => rfl
      | some p =>
        by_cases same : p = q
        · simp [same]
        · simp [same]
    have others : (rules.filter fun r => r.headPred.any fun p => p ∈ keys) =
        (rules.filter fun r => r.headPred.any fun p => p ∈ q :: keys).filter
          fun r => !decide (r.headPred = some q) := by
      rw [List.filter_filter]
      apply List.filter_congr
      intro r _
      cases head : r.headPred with
      | none => simp
      | some p =>
        by_cases same : p = q
        · subst same
          simp [fresh]
        · simp [same]
    rw [List.flatMap_cons]
    refine ((ih nodup).append_left _).trans ?_
    rw [first, others]
    exact List.filter_append_perm _ _

/-- The head groups and the remaining rules are all rules. -/
theorem perm_rules (same : keys.Perm (derivedPredIds rules)) :
    (keys.flatMap (headGroup rules) ++ varPredRules rules).Perm rules := by
  have nodup : keys.Nodup := same.nodup_iff.mpr (List.nodup_dedup _)
  have constant : (rules.filter fun r => r.headPred.any fun p => p ∈ keys) =
      rules.filter fun r => !decide (r.headPred = none) := by
    apply List.filter_congr
    intro r hr
    cases head : r.headPred with
    | none => rfl
    | some p =>
      have derived : p ∈ keys := same.symm.subset (mem_derivedPredIds.mpr ⟨r, hr, head⟩)
      simp [derived]
  refine ((flatMap_headGroup_perm nodup).append_right _).trans ?_
  rw [constant]
  refine List.perm_append_comm.trans ?_
  exact List.filter_append_perm _ _

end Rules

section Components

variable {rules : List Rule} {uf : UnionFind} {rep : TermId → TermId} {depth fuel : Nat}
  {done pairs : List (TermId × TermId)}

/-- Union by rank links two roots, one way or the other. -/
theorem exists_union (forest : DisjointSets.Forest uf.parent depth rep)
    (classes : DisjointSets.Classes rep done) (enough : depth < fuel) (pair : TermId × TermId) :
    ∃ uf' rep', UnionFind.union fuel uf pair = some uf' ∧
      DisjointSets.Forest uf'.parent (depth + 1) rep' ∧
      DisjointSets.Classes rep' (done ++ [pair]) := by
  obtain ⟨x, y⟩ := pair
  obtain ⟨parent', found, forest⟩ := forest.findBoth enough x y
  have fixed := forest.rep_rep
  rw [UnionFind.union, found, Option.map_some]
  dsimp only
  by_cases same : rep x = rep y
  · rw [if_pos same]
    exact ⟨_, rep, rfl, forest.mono (Nat.le_succ depth), classes.same same⟩
  · rw [if_neg same]
    have below := classes.merge fixed (a := x) (b := y) (.inl ⟨rfl, rfl⟩)
    have above := classes.merge fixed (a := x) (b := y) (.inr ⟨rfl, rfl⟩)
    split
    · exact ⟨_, _, rfl, forest.link (fixed x) (fixed y) same, below⟩
    · split
      · exact ⟨_, _, rfl, forest.link (fixed y) (fixed x) (Ne.symm same), above⟩
      · exact ⟨_, _, rfl, forest.link (fixed y) (fixed x) (Ne.symm same), above⟩

theorem exists_foldlM_union (forest : DisjointSets.Forest uf.parent depth rep)
    (classes : DisjointSets.Classes rep done) (enough : depth + pairs.length ≤ fuel) :
    ∃ uf' rep', pairs.foldlM (UnionFind.union fuel) uf = some uf' ∧
      DisjointSets.Forest uf'.parent (depth + pairs.length) rep' ∧
      DisjointSets.Classes rep' (done ++ pairs) := by
  induction pairs generalizing uf rep depth done with
  | nil =>
    rw [List.append_nil]
    exact ⟨uf, rep, rfl, forest, classes⟩
  | cons pair pairs ih =>
    rw [List.length_cons] at enough
    obtain ⟨uf₁, rep₁, united, forest₁, classes₁⟩ :=
      exists_union forest classes (show depth < fuel by omega) pair
    obtain ⟨uf₂, rep₂, rest, forest₂, classes₂⟩ := ih forest₁ classes₁ (by omega)
    rw [List.append_assoc, List.singleton_append] at classes₂
    rw [Nat.add_right_comm] at forest₂
    refine ⟨uf₂, rep₂, ?_, forest₂, classes₂⟩
    rw [List.foldlM_cons, united]
    exact rest

/-- The entries hold the predicates seen so far, each under its representative. -/
structure Gathered (rep : TermId → TermId) (seen : List TermId)
    (components : List (TermId × List TermId)) : Prop where
  keys : components.Pairwise fun c c' => c.1 ≠ c'.1
  members : ∀ c ∈ components, ∀ p ∈ c.2, rep p = c.1
  perm : (components.flatMap Prod.snd).Perm seen

theorem mem_push {root p : TermId} {components : List (TermId × List TermId)}
    {c : TermId × List TermId} (h : c ∈ push root p components) :
    (∃ c' ∈ components, c'.1 = c.1 ∧ ∀ q ∈ c.2, q ∈ c'.2 ∨ q = p ∧ c.1 = root) ∨
      c = (root, [p]) := by
  induction components with
  | nil => exact .inr (List.mem_singleton.mp h)
  | cons c' components ih =>
    obtain ⟨key, preds⟩ := c'
    rw [push] at h
    split at h
    · rename_i here
      refine .inl ?_
      obtain rfl | old := List.mem_cons.mp h
      · refine ⟨(key, preds), List.mem_cons_self, rfl, ?_⟩
        intro q hq
        refine (List.mem_append.mp hq).imp_right fun last => ?_
        exact ⟨List.mem_singleton.mp last, here⟩
      · exact ⟨c, List.mem_cons_of_mem _ old, rfl, fun q hq => .inl hq⟩
    · obtain rfl | later := List.mem_cons.mp h
      · exact .inl ⟨(key, preds), List.mem_cons_self, rfl, fun q hq => .inl hq⟩
      · refine (ih later).imp_left ?_
        rintro ⟨c', hc', rest⟩
        exact ⟨c', List.mem_cons_of_mem _ hc', rest⟩

theorem pairwise_push {root p : TermId} {components : List (TermId × List TermId)}
    (keys : components.Pairwise fun c c' => c.1 ≠ c'.1) :
    (push root p components).Pairwise fun c c' => c.1 ≠ c'.1 := by
  induction components with
  | nil => exact List.pairwise_singleton _ _
  | cons c' components ih =>
    obtain ⟨key, preds⟩ := c'
    obtain ⟨first, rest⟩ := List.pairwise_cons.mp keys
    rw [push]
    split
    · exact List.pairwise_cons.mpr ⟨first, rest⟩
    · rename_i other
      refine List.pairwise_cons.mpr ⟨?_, ih rest⟩
      intro c hc
      obtain ⟨c', hc', same, -⟩ | rfl := mem_push hc
      · exact same ▸ first c' hc'
      · exact other

theorem flatMap_push {root p : TermId} {components : List (TermId × List TermId)} :
    ((push root p components).flatMap Prod.snd).Perm (components.flatMap Prod.snd ++ [p]) := by
  induction components with
  | nil => exact .refl _
  | cons c' components ih =>
    obtain ⟨key, preds⟩ := c'
    rw [push]
    split
    · simp only [List.flatMap_cons, List.append_assoc]
      exact (List.perm_append_comm).append_left preds
    · simp only [List.flatMap_cons, List.append_assoc]
      exact ih.append_left preds

theorem Gathered.push {root p : TermId} {seen : List TermId}
    {components : List (TermId × List TermId)} (h : Gathered rep seen components)
    (same : rep p = root) : Gathered rep (seen ++ [p]) (ParallelGroups.push root p components) where
  keys := pairwise_push h.keys
  members := by
    intro c hc q hq
    obtain ⟨c', hc', key, inside⟩ | rfl := mem_push hc
    · obtain old | ⟨rfl, new⟩ := inside q hq
      · exact (h.members c' hc' q old).trans key
      · exact same.trans new.symm
    · exact List.mem_singleton.mp hq ▸ same
  perm := flatMap_push.trans (h.perm.append_right [p])

theorem exists_gather {parent : TermId → TermId} {preds seen : List TermId}
    {components : List (TermId × List TermId)} (forest : DisjointSets.Forest parent depth rep)
    (enough : depth < fuel) (h : Gathered rep seen components) :
    ∃ components', gather fuel preds parent components = some components' ∧
      Gathered rep (seen ++ preds) components' := by
  induction preds generalizing parent seen components with
  | nil =>
    rw [List.append_nil]
    exact ⟨components, rfl, h⟩
  | cons p preds ih =>
    obtain ⟨parent', found, forest'⟩ := forest.find enough p
    obtain ⟨components', rest, all⟩ := ih forest' (h.push rfl)
    rw [List.append_assoc, List.singleton_append] at all
    refine ⟨components', ?_, all⟩
    rw [gather, found]
    exact rest

end Components

section Unsorted

variable {rules : List Rule} {choices : Choices rules} {rep : TermId → TermId} {p q : TermId}
  {r : Rule} {components : List (TermId × List TermId)}

theorem mem_dependsOn (hr : r ∈ rules) (head : r.headPred = some p)
    (mentions : q ∈ r.mentionedPreds)
    (derived : q ∈ derivedPredIds rules) (other : q ≠ p) : q ∈ dependsOn rules p := by
  rw [dependsOn, List.mem_dedup, List.mem_filter, List.mem_flatMap]
  refine ⟨⟨r, mem_headGroup.mpr ⟨hr, head⟩, ?_⟩, decide_eq_true other⟩
  exact List.mem_filter.mpr ⟨mentions, decide_eq_true derived⟩

/-- A rule's head and the derived predicates that it mentions are in one class. -/
theorem rep_eq_of_mentions (classes : DisjointSets.Classes rep (edges choices)) (hr : r ∈ rules)
    (head : r.headPred = some p) (mentions : q ∈ r.mentionedPreds)
    (derived : q ∈ derivedPredIds rules) : rep p = rep q := by
  by_cases same : q = p
  · rw [same]
  · rw [classes p q]
    refine .rel p q ?_
    rw [edges, List.mem_flatMap]
    have hp : p ∈ derivedPredIds rules := mem_derivedPredIds.mpr ⟨r, hr, head⟩
    have hq : q ∈ dependsOn rules p := mem_dependsOn hr head mentions derived same
    exact ⟨p, choices.heads_perm.symm.subset hp,
      List.mem_map_of_mem ((choices.deps_perm p).symm.subset hq)⟩

theorem mem_groupOf {predIds : List TermId} :
    r ∈ (groupOf rules predIds).rules ↔ r ∈ rules ∧ ∃ p ∈ predIds, r.headPred = some p := by
  simp only [groupOf, List.mem_flatMap, mem_headGroup]
  constructor
  · rintro ⟨p, hp, hr, head⟩
    exact ⟨hr, p, hp, head⟩
  · rintro ⟨hr, p, hp, head⟩
    exact ⟨p, hp, hr, head⟩

theorem pairwise_apart {seen : List TermId} (gathered : Gathered rep seen components)
    (classes : DisjointSets.Classes rep (edges choices)) :
    ((components.map Prod.snd).map (groupOf rules)).Pairwise Apart := by
  rw [List.pairwise_map, List.pairwise_map]
  apply gathered.keys.imp_of_mem
  intro c c' hc hc' different
  have split {p q : TermId} (hp : p ∈ c.2) (hq : q ∈ c'.2) : rep p ≠ rep q := by
    rw [gathered.members c hc p hp, gathered.members c' hc' q hq]
    exact different
  constructor
  · intro r hr r' hr' p head head'
    obtain ⟨-, p₁, hp₁, head₁⟩ := mem_groupOf.mp hr
    obtain ⟨-, p₂, hp₂, head₂⟩ := mem_groupOf.mp hr'
    cases head.symm.trans head₁
    cases head'.symm.trans head₂
    exact split hp₁ hp₂ rfl
  · intro r hr r' hr' p q head head'
    obtain ⟨inRules, p₁, hp₁, head₁⟩ := mem_groupOf.mp hr
    obtain ⟨inRules', p₂, hp₂, head₂⟩ := mem_groupOf.mp hr'
    cases head.symm.trans head₁
    cases head'.symm.trans head₂
    have apart : rep p ≠ rep q := split hp₁ hp₂
    constructor
    · intro mentions
      have derived : p ∈ derivedPredIds rules := mem_derivedPredIds.mpr ⟨r, inRules, head⟩
      exact apart (rep_eq_of_mentions classes inRules' head' mentions derived).symm
    · intro mentions
      have derived : q ∈ derivedPredIds rules := mem_derivedPredIds.mpr ⟨r', inRules', head'⟩
      exact apart (rep_eq_of_mentions classes inRules head mentions derived)

theorem mem_unsorted {values : List (List TermId)} {g : ParallelGroup}
    (hg : g ∈ unsorted rules values) :
    (∃ predIds ∈ values, g = groupOf rules predIds) ∨ g = ⟨varPredRules rules, []⟩ := by
  rw [unsorted] at hg
  split at hg
  · obtain ⟨predIds, hp, rfl⟩ := List.mem_map.mp hg
    exact .inl ⟨predIds, hp, rfl⟩
  · obtain constant | serial := List.mem_append.mp hg
    · obtain ⟨predIds, hp, rfl⟩ := List.mem_map.mp constant
      exact .inl ⟨predIds, hp, rfl⟩
    · exact .inr (List.mem_singleton.mp serial)

theorem headPred_of_mem_varPredRules (hr : r ∈ varPredRules rules) : r.headPred = none := by
  rw [varPredRules, List.mem_filter, decide_eq_true_eq] at hr
  exact hr.2

theorem pairwise_unsorted {R : ParallelGroup → ParallelGroup → Prop} {values : List (List TermId)}
    (constant : (values.map (groupOf rules)).Pairwise R)
    (serial : ∀ predIds, R (groupOf rules predIds) ⟨varPredRules rules, []⟩) :
    (unsorted rules values).Pairwise R := by
  rw [unsorted]
  split
  · exact constant
  · refine List.pairwise_append.mpr ⟨constant, List.pairwise_singleton _ _, ?_⟩
    intro g hg g' hg'
    obtain ⟨predIds, -, rfl⟩ := List.mem_map.mp hg
    cases List.mem_singleton.mp hg'
    exact serial predIds

theorem flatMap_unsorted {values : List (List TermId)} :
    (unsorted rules values).flatMap ParallelGroup.rules =
      values.flatten.flatMap (headGroup rules) ++ varPredRules rules := by
  have constant : (values.map (groupOf rules)).flatMap ParallelGroup.rules =
      values.flatten.flatMap (headGroup rules) := by
    induction values with
    | nil => rfl
    | cons predIds values ih =>
      rw [List.map_cons, List.flatMap_cons, List.flatten_cons, List.flatMap_append, ih]
      rfl
  rw [unsorted]
  split
  · rename_i none
    rw [constant, none, List.append_nil]
  · rw [List.flatMap_append, constant, List.flatMap_singleton]

/-- The groups are a partition before they are sorted; the rules without a constant head
are the last group. -/
theorem partitioned_unsorted {values : List (List TermId)}
    (gathered : Gathered rep choices.preds components)
    (classes : DisjointSets.Classes rep (edges choices))
    (same : values.Perm (components.map Prod.snd)) : Partitioned rules (unsorted rules values) where
  perm := by
    rw [flatMap_unsorted]
    refine List.Perm.trans ?_ (perm_rules choices.preds_perm)
    apply List.Perm.append_right
    apply List.Perm.flatMap_right
    refine List.Perm.trans same.flatten ?_
    rw [← List.flatMap_def]
    exact gathered.perm
  apart := by
    apply pairwise_unsorted
    · exact ((same.map (groupOf rules)).pairwise_iff Apart.symm).mpr
        (pairwise_apart gathered classes)
    · intro predIds
      constructor
      · intro r hr r' hr' p head head'
        rw [headPred_of_mem_varPredRules hr'] at head'
        cases head'
      · intro r hr r' hr' p q head head'
        rw [headPred_of_mem_varPredRules hr'] at head'
        cases head'
  uniform := by
    intro g hg
    obtain ⟨predIds, -, rfl⟩ | rfl := mem_unsorted hg
    · refine .inl ?_
      intro r hr none
      obtain ⟨-, p, -, head⟩ := mem_groupOf.mp hr
      rw [head] at none
      cases none
    · exact .inr fun r hr => headPred_of_mem_varPredRules hr
  ordered := by
    apply pairwise_unsorted
    · rw [List.pairwise_map]
      apply List.pairwise_of_forall
      rintro predIds predIds' ⟨r, -, r', hr', p, -, none, -⟩
      obtain ⟨-, p, -, head⟩ := mem_groupOf.mp hr'
      rw [head] at none
      cases none
    · rintro predIds ⟨r, hr, r', -, p, head, -⟩
      rw [headPred_of_mem_varPredRules hr] at head
      cases head

end Unsorted

section Sorted

variable {rules : List Rule} {groups : List ParallelGroup} {g g' : ParallelGroup}
  {arrange : List Nat → List Nat} {i j : Nat}

/-- Every group lists the head predicates of its rules. -/
def Listed (groups : List ParallelGroup) : Prop :=
  ∀ g ∈ groups, ∀ r ∈ g.rules, ∀ p, r.headPred = some p → p ∈ g.derivedPredicates

theorem listed_unsorted {values : List (List TermId)} : Listed (unsorted rules values) := by
  intro g hg r hr p head
  obtain ⟨predIds, -, rfl⟩ | rfl := mem_unsorted hg
  · obtain ⟨-, q, hq, head'⟩ := mem_groupOf.mp hr
    cases head.symm.trans head'
    exact hq
  · rw [headPred_of_mem_varPredRules hr] at head
    cases head

/-- A group that feeds another one has an edge to it. -/
theorem mem_adj_of_feeds (listed : Listed groups) (hi : groups[i]? = some g)
    (hj : groups[j]? = some g') (ne : i ≠ j) (feeds : Feeds g g') : j ∈ adj groups i := by
  obtain ⟨r, hr, r', hr', p, head, -, mentions⟩ := feeds
  have hg : g ∈ groups := List.mem_of_getElem? hi
  have derived : p ∈ g.derivedPredicates := listed g hg r hr p head
  have bound : j < groups.length := by
    by_contra out
    rw [List.getElem?_eq_none (Nat.le_of_not_lt out)] at hj
    cases hj
  rw [adj, List.mem_filter, List.mem_range]
  refine ⟨bound, ?_⟩
  simp only [hi, hj, Bool.and_eq_true, decide_eq_true_eq]
  refine ⟨ne, List.any_eq_true.mpr ⟨p, derived, decide_eq_true ?_⟩⟩
  rw [List.mem_flatMap]
  refine ⟨r', hr', List.mem_filter.mpr ⟨mentions, decide_eq_true ?_⟩⟩
  exact List.mem_flatMap.mpr ⟨g, hg, derived⟩

theorem nodup_adj : (adj groups i).Nodup := List.nodup_range.filter _

theorem lt_of_mem_adj (hj : j ∈ adj groups i) : j < groups.length :=
  List.mem_range.mp (List.mem_filter.mp hj).1

/-- The invariant of Kahn's algorithm after the last round. -/
theorem inv_order (perm : ∀ l, (arrange l).Perm l) :
    Kahn.Inv groups.length (adj groups) [] (Kahn.runBy arrange (adj groups) groups.length
      (Kahn.startBy arrange groups.length (adj groups))) :=
  (Kahn.inv_startBy perm).runBy perm (fun _ => nodup_adj) fun _ _ => lt_of_mem_adj

theorem filterMap_range : (List.range groups.length).filterMap (fun i => groups[i]?) = groups := by
  induction groups with
  | nil => rfl
  | cons g groups ih =>
    rw [List.length_cons, List.range_succ_eq_map, List.filterMap_cons, List.filterMap_map]
    simpa using ih

theorem Partitioned.sort {sort : (Nat → Int) → List Nat → List Nat}
    (perm : ∀ key l, (sort key l).Perm l) (h : Partitioned rules groups) (listed : Listed groups) :
    Partitioned rules (topologicalSortGroups sort groups) := by
  rw [topologicalSortGroups]
  split
  · exact h
  · split
    · exact h
    · rename_i complete
      have inv : Kahn.Inv groups.length (adj groups) [] (Kahn.runBy (sort (sortKey groups))
          (adj groups) groups.length (Kahn.startBy (sort (sortKey groups)) groups.length
            (adj groups))) := inv_order (perm (sortKey groups))
      have all : (order (sort (sortKey groups)) groups).Perm (List.range groups.length) :=
        inv.perm_range (Nat.le_of_not_lt complete)
      have same := all.filterMap fun i => groups[i]?
      rw [filterMap_range] at same
      refine ⟨?_, ?_, ?_, ?_⟩
      · exact (same.flatMap_right _).trans h.perm
      · exact (same.pairwise_iff Apart.symm).mpr h.apart
      · intro g hg
        exact h.uniform g (same.subset hg)
      · rw [List.pairwise_filterMap]
        have nodup : (order (sort (sortKey groups)) groups).Nodup :=
          all.nodup_iff.mpr List.nodup_range
        apply (nodup.and inv.pairwise).imp
        rintro i j ⟨ne, noEdge⟩ g hi g' hj feeds
        exact noEdge (mem_adj_of_feeds listed hj hi (Ne.symm ne) feeds)

end Sorted

/-- For every rule list, and whatever orders the hash maps and the sort choose, the rules are
partitioned into independent groups that are ordered by what they produce. -/
theorem partitionIntoParallelGroups_correct (rules : List Rule) (choices : Choices rules)
    (parallelWorkers : Int) :
    ∃ analysis, partitionIntoParallelGroups rules choices parallelWorkers = some analysis ∧
      Partitioned rules analysis.groups ∧ analysis.parallelGroups = analysis.groups.length ∧
      analysis.maxConcurrent ≤ analysis.groups.length := by
  by_cases empty : rules = []
  · subst empty
    refine ⟨⟨[], 0, 0⟩, if_pos rfl, ?_, rfl, Nat.le_refl 0⟩
    exact ⟨.nil, .nil, nofun, .nil⟩
  · have start : DisjointSets.Forest UnionFind.new.parent 0 id := DisjointSets.forest_id
    have room : 0 + (edges choices).length ≤ (edges choices).length + 1 := by omega
    obtain ⟨uf, rep, united, forest, classes⟩ :=
      exists_foldlM_union start DisjointSets.classes_id room
    rw [List.nil_append] at classes
    have none : Gathered rep [] [] := ⟨.nil, nofun, .nil⟩
    have room : 0 + (edges choices).length < (edges choices).length + 1 := by omega
    obtain ⟨components, gathered, whole⟩ :
        ∃ components, gather ((edges choices).length + 1) choices.preds uf.parent [] =
          some components ∧ Gathered rep ([] ++ choices.preds) components :=
      exists_gather forest room none
    rw [List.nil_append] at whole
    have unsorted_ := partitioned_unsorted whole classes (choices.values_perm _)
    have sorted := unsorted_.sort choices.sort_perm listed_unsorted
    obtain ⟨groups, computed⟩ : ∃ groups, topologicalSortGroups choices.sort
        (unsorted rules (choices.values (components.map Prod.snd))) = groups := ⟨_, rfl⟩
    rw [computed] at sorted
    refine ⟨⟨groups, groups.length,
      if parallelWorkers ≤ 0 then 1 else min groups.length parallelWorkers.toNat⟩,
      ?_, sorted, rfl, ?_⟩
    · rw [partitionIntoParallelGroups, if_neg empty]
      simp only [united, Option.bind_eq_bind, Option.bind_some, gathered, computed]
    · dsimp only
      split
      · apply List.length_pos_of_ne_nil
        rintro rfl
        exact empty sorted.perm.symm.eq_nil
      · exact Nat.min_le_left _ _

end ParallelGroups

end PgRipple.Datalog
