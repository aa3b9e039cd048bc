import Mathlib.Algebra.Group.Nat.Defs
import Mathlib.Data.List.Dedup
import Mathlib.Data.List.Induction
import Mathlib.Data.List.Nodup
import Mathlib.Logic.Relation
import PgRipple.Lib.LayeredKahn

/-!
# The scheduler of the CONSTRUCT rules

A rule reads the graphs that its pattern names and writes its target graph. The order of a new
rule is its position in a topological order of all rules.

The order of the rows with equal `rule_order` and the iteration orders of the hash maps are left
open.
-/

namespace PgRipple.Construct

inductive NamedNodePattern where
  | namedNode (iri : String)
  | variable (name : String)

/-- The algebra, with what the walk looks at. -/
inductive GraphPattern where
  | graph (name : NamedNodePattern) (inner : GraphPattern)
  | join (left right : GraphPattern)
  | leftJoin (left right : GraphPattern)
  | minus (left right : GraphPattern)
  | union (left right : GraphPattern)
  | filter (inner : GraphPattern)
  | extend (inner : GraphPattern)
  | orderBy (inner : GraphPattern)
  | project (inner : GraphPattern)
  | distinct (inner : GraphPattern)
  | reduced (inner : GraphPattern)
  | slice (inner : GraphPattern)
  | group (inner : GraphPattern)
  /-- Basic graph patterns, paths, inline data and services. -/
  | other

namespace GraphPattern

def walk : GraphPattern → List String
  | graph (.namedNode nn) inner => nn :: walk inner
  | join left right | leftJoin left right | minus left right | union left right =>
    walk left ++ walk right
  | filter inner | graph (.variable _) inner | extend inner | orderBy inner | project inner
  | distinct inner | reduced inner | slice inner | group inner => walk inner
  | other => []

end GraphPattern

/-- The set of graph IRIs, without an order. -/
def collectSourceGraphs (pattern : GraphPattern) : List String := pattern.walk.dedup

structure Rule where
  name : String
  targetGraph : String
  sourceGraphs : List String
deriving DecidableEq

/-- A row of `construct_rules`. -/
structure ConstructRule extends Rule where
  ruleOrder : Int
deriving DecidableEq

/-- The orders that the code leaves open. -/
structure Iteration where
  rows : List ConstructRule → List ConstructRule
  sourceGraphs : List String → List String
  inDegree : List String → List String
  predecessors : List String → List String
  rows_perm : ∀ table, (rows table).Perm table
  rows_sorted : ∀ table, (rows table).Pairwise fun r s => r.ruleOrder ≤ s.ruleOrder
  sourceGraphs_perm : ∀ graphs, (sourceGraphs graphs).Perm graphs
  inDegree_perm : ∀ names, (inDegree names).Perm names
  predecessors_perm : ∀ names, (predecessors names).Perm names

/-- `graph_iri → rule_name that writes it`. -/
def writerOf (rules : List Rule) : String → Option String :=
  rules.foldl (fun map r => Function.update map r.targetGraph (some r.name)) fun _ => none

/-- The other rules that write what the rule reads. -/
def Rule.writers (writerOf : String → Option String) (r : Rule) : List String :=
  r.sourceGraphs.filterMap fun sg => (writerOf sg).filter (· ≠ r.name)

/-- The rules that must run before the rules of that name. -/
def predecessors (rules : List Rule) (name : String) : List String :=
  (rules.filter (·.name = name)).flatMap (Rule.writers (writerOf rules))

def cycleError (cycleRules : List String) : String :=
  "construct rules " ++ ", ".intercalate cycleRules ++
    " form a cycle — mutual writeback is not supported"

def computeRuleOrder (it : Iteration) (table : List ConstructRule) (new : Rule) :
    Except String Int :=
  let rules := (it.rows table).map (·.toRule) ++ [new]
  let allNames := rules.map (·.name)
  let preds := predecessors rules
  let inDegree := (allNames ++ allNames.flatMap preds).dedup
  match LayeredKahn.topoOrder preds inDegree (it.predecessors allNames.dedup)
      (it.inDegree inDegree) with
  | .error rule =>
    .error ("construct rule stratification: in_degree entry missing for rule \"" ++ rule ++
      "\" — internal invariant violated")
  | .ok order =>
    if order.length < allNames.length then
      .error (cycleError (allNames.filter (· ∉ order)))
    -- `as i32`
    else .ok (Int.bmod (order.idxOf new.name) (2 ^ 32))

/-- `w` writes a graph that `r` reads. -/
def Rule.Feeds (w r : Rule) : Prop := w.targetGraph ∈ r.sourceGraphs

instance (w r : Rule) : Decidable (w.Feeds r) := inferInstanceAs (Decidable (_ ∈ _))

def Edge (rules : List Rule) (w r : Rule) : Prop := w ∈ rules ∧ r ∈ rules ∧ w.Feeds r

def Cyclic (rules : List Rule) : Prop := ∃ r, Relation.TransGen (Edge rules) r r

/-- No graph that a rule reads is written by two rules. -/
def OneWriter (rules : List Rule) : Prop :=
  ∀ w ∈ rules, ∀ w' ∈ rules, ∀ r ∈ rules, w.Feeds r → w'.targetGraph = w.targetGraph → w' = w

instance (rules : List Rule) : Decidable (OneWriter rules) :=
  inferInstanceAs (Decidable (∀ w ∈ rules, ∀ w' ∈ rules, ∀ r ∈ rules, _))

/-- What makes the maps of the scheduler exact. -/
structure SingleWriter (rules : List Rule) : Prop where
  names : (rules.map (·.name)).Nodup
  writers : OneWriter rules
  sources : ∀ r ∈ rules, r.sourceGraphs.Nodup
  apart : ∀ r ∈ rules, ¬ r.Feeds r

variable {rules rules' : List Rule} {w r : Rule} {u v g : String}

theorem SingleWriter.perm (h : SingleWriter rules) (p : rules'.Perm rules) :
    SingleWriter rules' where
  names := (p.map _).nodup_iff.mpr h.names
  writers := fun w hw w' hw' r hr =>
    h.writers w (p.subset hw) w' (p.subset hw') r (p.subset hr)
  sources := fun r mem => h.sources r (p.subset mem)
  apart := fun r mem => h.apart r (p.subset mem)

theorem Cyclic.perm (h : Cyclic rules) (p : rules'.Perm rules) : Cyclic rules' := by
  obtain ⟨r, path⟩ := h
  refine ⟨r, Relation.TransGen.mono (fun a b edge => ?_) _ _ path⟩
  exact ⟨p.symm.subset edge.1, p.symm.subset edge.2.1, edge.2.2⟩

/-- What increases along the edges excludes cycles. -/
theorem not_cyclic (rank : Rule → Nat)
    (above : ∀ w ∈ rules, ∀ r ∈ rules, w.Feeds r → rank w < rank r) : ¬ Cyclic rules := by
  rintro ⟨r, path⟩
  have increases {a b : Rule} (path : Relation.TransGen (Edge rules) a b) : rank a < rank b := by
    induction path with
    | single edge => exact above _ edge.1 _ edge.2.1 edge.2.2
    | tail _ edge ih => exact Nat.lt_trans ih (above _ edge.1 _ edge.2.1 edge.2.2)
  exact Nat.lt_irrefl _ (increases path)

/-- A rule is on level 0 if it reads no target, and else right above the highest writer. -/
structure Leveled (rules : List Rule) (level : String → Nat) : Prop where
  above : ∀ w ∈ rules, ∀ r ∈ rules, w.Feeds r → level w.name < level r.name
  next : ∀ r ∈ rules, level r.name ≠ 0 →
    ∃ w ∈ rules, w.Feeds r ∧ level r.name = level w.name + 1

/-- A new rule that no other one reads gets a level, and the others keep theirs. -/
theorem Leveled.extend {level : String → Nat} (h : Leveled rules level) (new : Rule)
    (fresh : new.name ∉ rules.map (·.name)) (unread : ∀ r ∈ rules, ¬ new.Feeds r)
    (apart : ¬ new.Feeds new) :
    ∃ level', (∀ r ∈ rules, level' r.name = level r.name) ∧ Leveled (rules ++ [new]) level' := by
  obtain ⟨top, above, next⟩ :=
    LayeredKahn.exists_above (fun w : Rule => level w.name) (rules.filter (·.Feeds new))
  have kept : ∀ r ∈ rules, Function.update level new.name top r.name = level r.name := by
    intro r mem
    have other : r.name ≠ new.name := fun same => fresh (same ▸ List.mem_map_of_mem mem)
    exact Function.update_of_ne other ..
  refine ⟨Function.update level new.name top, kept, fun w hw r hr feeds => ?_, fun r hr high => ?_⟩
  · obtain hw | hw := List.mem_append.mp hw
    · rw [kept w hw]
      obtain hr | hr := List.mem_append.mp hr
      · rw [kept r hr]
        exact h.above w hw r hr feeds
      · rw [List.mem_singleton.mp hr, Function.update_self]
        rw [List.mem_singleton.mp hr] at feeds
        exact above w (List.mem_filter.mpr ⟨hw, decide_eq_true feeds⟩)
    · rw [List.mem_singleton.mp hw] at feeds
      obtain hr | hr := List.mem_append.mp hr
      · exact absurd feeds (unread r hr)
      · exact absurd (List.mem_singleton.mp hr ▸ feeds) apart
  · obtain hr | hr := List.mem_append.mp hr
    · rw [kept r hr] at high ⊢
      obtain ⟨w, hw, feeds, up⟩ := h.next r hr high
      exact ⟨w, List.mem_append_left _ hw, feeds, by rw [kept w hw, up]⟩
    · rw [List.mem_singleton.mp hr] at high ⊢
      rw [Function.update_self] at high ⊢
      obtain ⟨w, hw, up⟩ := next high
      obtain ⟨hw, feeds⟩ := List.mem_filter.mp hw
      exact ⟨w, List.mem_append_left _ hw, of_decide_eq_true feeds, by rw [kept w hw, up]⟩

theorem writerOf_append : writerOf (rules ++ [r]) =
    Function.update (writerOf rules) r.targetGraph (some r.name) := by
  rw [writerOf, List.foldl_append]
  rfl

theorem exists_of_writerOf (found : writerOf rules g = some u) :
    ∃ w ∈ rules, w.targetGraph = g ∧ w.name = u := by
  induction rules using List.reverseRecOn with
  | nil => cases found
  | append_singleton rules r ih =>
    rw [writerOf_append] at found
    by_cases here : g = r.targetGraph
    · subst here
      rw [Function.update_self, Option.some.injEq] at found
      exact ⟨r, by simp, rfl, found⟩
    · rw [Function.update_of_ne here] at found
      obtain ⟨w, mem, writes⟩ := ih found
      exact ⟨w, List.mem_append_left _ mem, writes⟩

theorem exists_writerOf (mem : w ∈ rules) : ∃ u, writerOf rules w.targetGraph = some u := by
  induction rules using List.reverseRecOn with
  | nil => exact absurd mem List.not_mem_nil
  | append_singleton rules r ih =>
    rw [writerOf_append]
    by_cases here : w.targetGraph = r.targetGraph
    · rw [here]
      exact ⟨r.name, Function.update_self ..⟩
    · rw [Function.update_of_ne here]
      obtain old | new := List.mem_append.mp mem
      · exact ih old
      · exact absurd (congrArg Rule.targetGraph (List.mem_singleton.mp new)) here

theorem mem_writers : u ∈ r.writers (writerOf rules) ↔
    ∃ sg ∈ r.sourceGraphs, writerOf rules sg = some u ∧ u ≠ r.name := by
  simp [Rule.writers, Option.filter_eq_some_iff]

theorem mem_predecessors : u ∈ predecessors rules v ↔
    ∃ r ∈ rules, r.name = v ∧ u ∈ r.writers (writerOf rules) := by
  simp [predecessors, and_assoc]

theorem predecessors_subset : predecessors rules v ⊆ rules.map (·.name) := by
  intro u mem
  obtain ⟨r, -, -, writer⟩ := mem_predecessors.mp mem
  obtain ⟨sg, -, found, -⟩ := mem_writers.mp writer
  obtain ⟨w, inside, -, rfl⟩ := exists_of_writerOf found
  exact List.mem_map_of_mem inside

namespace SingleWriter

theorem eq_of_name (h : SingleWriter rules) (hw : w ∈ rules) (hr : r ∈ rules)
    (same : w.name = r.name) : w = r := List.inj_on_of_nodup_map h.names hw hr same

theorem mem_writers (h : SingleWriter rules) (hr : r ∈ rules) :
    u ∈ r.writers (writerOf rules) ↔ ∃ w ∈ rules, w.name = u ∧ w.Feeds r := by
  rw [Construct.mem_writers]
  constructor
  · rintro ⟨sg, reads, found, -⟩
    obtain ⟨w, mem, rfl, named⟩ := exists_of_writerOf found
    exact ⟨w, mem, named, reads⟩
  · rintro ⟨w, mem, rfl, feeds⟩
    obtain ⟨u, found⟩ := exists_writerOf mem
    obtain ⟨w', mem', same, rfl⟩ := exists_of_writerOf found
    rw [h.writers w mem w' mem' r hr feeds same] at found
    refine ⟨w.targetGraph, feeds, found, fun same => ?_⟩
    exact h.apart r hr (h.eq_of_name mem hr same ▸ feeds)

theorem predecessors_eq (h : SingleWriter rules) (hr : r ∈ rules) :
    predecessors rules r.name = r.writers (writerOf rules) := by
  have only : rules.filter (fun s => s.name = r.name) = [r] := by
    have nodup : (rules.filter fun s => s.name = r.name).Nodup :=
      (List.Nodup.of_map _ h.names).filter _
    apply List.perm_singleton.mp
    refine (List.perm_ext_iff_of_nodup nodup (List.nodup_singleton r)).mpr fun s => ?_
    rw [List.mem_filter, decide_eq_true_eq, List.mem_singleton]
    constructor
    · rintro ⟨mem, same⟩
      exact h.eq_of_name mem hr same
    · rintro rfl
      exact ⟨hr, rfl⟩
  rw [predecessors, only, List.flatMap_singleton]

theorem nodup_predecessors (h : SingleWriter rules) (hr : r ∈ rules) :
    (predecessors rules r.name).Nodup := by
  rw [h.predecessors_eq hr, Rule.writers]
  refine List.Nodup.filterMap ?_ (h.sources r hr)
  intro g g' u hg hg'
  obtain ⟨found, -⟩ := Option.filter_eq_some_iff.mp hg
  obtain ⟨found', -⟩ := Option.filter_eq_some_iff.mp hg'
  obtain ⟨w, mem, rfl, rfl⟩ := exists_of_writerOf found
  obtain ⟨w', mem', rfl, same⟩ := exists_of_writerOf found'
  rw [h.eq_of_name mem mem' same.symm]

end SingleWriter

section Order

variable {it : Iteration} {table : List ConstructRule} {new : Rule} {order : List String}

/-- The rules in the order in which they are read. -/
def Iteration.inOrder (it : Iteration) (table : List ConstructRule) (new : Rule) : List Rule :=
  (it.rows table).map (·.toRule) ++ [new]

/-- The rules with the new one. -/
def withRule (table : List ConstructRule) (new : Rule) : List Rule :=
  table.map (·.toRule) ++ [new]

theorem Iteration.inOrder_perm (it : Iteration) (table : List ConstructRule) (new : Rule) :
    (it.inOrder table new).Perm (withRule table new) :=
  ((it.rows_perm table).map _).append_right _

@[simp] theorem length_withRule : (withRule table new).length = table.length + 1 := by
  simp [withRule]

/-- The positions are given by an order of some of the rules. -/
theorem computeRuleOrder_spec (it : Iteration) (table : List ConstructRule) (new : Rule) :
    ∃ nodes order, (∀ u, u ∈ nodes ↔ u ∈ (withRule table new).map (·.name)) ∧ nodes.Nodup ∧
      LayeredKahn.Ordered (predecessors (it.inOrder table new)) nodes order ∧
      computeRuleOrder it table new =
        if order.length < table.length + 1 then
          .error (cycleError (((it.inOrder table new).map (·.name)).filter (· ∉ order)))
        else .ok (Int.bmod (order.idxOf new.name) (2 ^ 32)) := by
  let rules := it.inOrder table new
  let allNames := rules.map (·.name)
  let inDegree := (allNames ++ allNames.flatMap (predecessors rules)).dedup
  have named (u : String) : u ∈ inDegree ↔ u ∈ allNames := by
    rw [List.mem_dedup, List.mem_append, or_iff_left_of_imp]
    intro mem
    obtain ⟨v, -, mem⟩ := List.mem_flatMap.mp mem
    exact predecessors_subset mem
  have all (u : String) : u ∈ inDegree ↔ u ∈ (withRule table new).map (·.name) := by
    rw [named]
    exact ((it.inOrder_perm table new).map _).mem_iff
  have keys : allNames.dedup.Perm inDegree := by
    refine (List.perm_ext_iff_of_nodup (List.nodup_dedup _) (List.nodup_dedup _)).mpr fun u => ?_
    rw [List.mem_dedup, named]
  have nodes : LayeredKahn.Nodes (predecessors rules) inDegree
      (it.predecessors allNames.dedup) :=
    ⟨List.nodup_dedup _, (it.predecessors_perm _).trans keys,
      fun v _ u mem => (named u).mpr (predecessors_subset mem)⟩
  obtain ⟨order, found, ordered⟩ := LayeredKahn.topoOrder_spec nodes (it.inDegree_perm inDegree)
  have length : allNames.length = table.length + 1 := by
    rw [List.length_map, (it.inOrder_perm table new).length_eq, length_withRule]
  refine ⟨inDegree, order, all, List.nodup_dedup _, ordered, ?_⟩
  rw [← length]
  have unfolded : computeRuleOrder it table new =
      match LayeredKahn.topoOrder (predecessors rules) inDegree (it.predecessors allNames.dedup)
        (it.inDegree inDegree) with
      | .error rule =>
        .error ("construct rule stratification: in_degree entry missing for rule \"" ++ rule ++
          "\" — internal invariant violated")
      | .ok order =>
        if order.length < allNames.length then .error (cycleError (allNames.filter (· ∉ order)))
        else .ok (Int.bmod (order.idxOf new.name) (2 ^ 32)) := rfl
  rw [unfolded, found]

/-- The names that are ordered are among those of the table if the rule is redefined. -/
theorem error_of_redefined (it : Iteration) {table : List ConstructRule} {new : Rule}
    (old : new.name ∈ table.map (·.name)) :
    ∃ text, computeRuleOrder it table new = .error text := by
  obtain ⟨nodes, order, all, nodup, ordered, result⟩ := computeRuleOrder_spec it table new
  have inside : order ⊆ table.map (·.name) := by
    intro u mem
    have named := (all u).mp (ordered.inside mem)
    rw [withRule, List.map_append, List.map_map, List.mem_append] at named
    obtain named | last := named
    · exact named
    · rw [List.map_singleton, List.mem_singleton] at last
      exact last ▸ old
  have bound := (List.subperm_of_subset ordered.nodup inside).length_le
  rw [List.length_map] at bound
  rw [result, if_pos (by omega)]
  exact ⟨_, rfl⟩

section SingleWriter

variable (h : SingleWriter (withRule table new)) {nodes : List String}
include h

theorem nodes_perm (all : ∀ u, u ∈ nodes ↔ u ∈ (withRule table new).map (·.name))
    (nodup : nodes.Nodup) : nodes.Perm ((withRule table new).map (·.name)) :=
  (List.perm_ext_iff_of_nodup nodup h.names).mpr all

/-- Only an order of all rules gives a position, and that excludes cycles. -/
theorem error_of_cyclic (it : Iteration) (cyclic : Cyclic (withRule table new)) :
    ∃ text, computeRuleOrder it table new = .error text := by
  obtain ⟨nodes, order, all, nodup, ordered, result⟩ := computeRuleOrder_spec it table new
  have single := h.perm (it.inOrder_perm table new)
  have short : order.length < table.length + 1 := by
    by_contra long
    have length := (nodes_perm h all nodup).length_eq
    rw [List.length_map, length_withRule] at length
    have perm : order.Perm nodes :=
      (List.subperm_of_subset ordered.nodup ordered.inside).perm_of_length_le (by omega)
    refine not_cyclic (fun r => order.idxOf r.name) (fun w hw r hr feeds => ?_)
      (cyclic.perm (it.inOrder_perm table new))
    have mem : r.name ∈ order := by
      rw [perm.mem_iff, all]
      exact List.mem_map_of_mem ((it.inOrder_perm table new).subset hr)
    refine ordered.idxOf_lt mem ?_
    rw [single.predecessors_eq hr, single.mem_writers hr]
    exact ⟨w, hw, rfl, feeds⟩
  rw [result, if_pos short]
  exact ⟨_, rfl⟩

/-- With layers, the position lies behind all rules on lower layers. -/
theorem computeRuleOrder_of_leveled (it : Iteration) {level : String → Nat}
    (leveled : Leveled (withRule table new) level) :
    ∃ pos : Nat, computeRuleOrder it table new = .ok (Int.bmod pos (2 ^ 32)) ∧
      pos ≤ table.length ∧
      (withRule table new).countP (fun r => level r.name < level new.name) ≤ pos ∧
      pos < (withRule table new).countP fun r => level r.name ≤ level new.name := by
  obtain ⟨nodes, order, all, nodup, ordered, result⟩ := computeRuleOrder_spec it table new
  have single := h.perm (it.inOrder_perm table new)
  have same : (it.inOrder table new).Perm (withRule table new) := it.inOrder_perm table new
  have named := nodes_perm h all nodup
  have edges {v : String} (hv : v ∈ nodes) : ∃ r ∈ withRule table new, r.name = v ∧
      (predecessors (it.inOrder table new) v).Nodup ∧
      ∀ u, u ∈ predecessors (it.inOrder table new) v ↔
        ∃ w ∈ withRule table new, w.name = u ∧ w.Feeds r := by
    obtain ⟨r, hr, rfl⟩ := List.mem_map.mp ((all v).mp hv)
    have hr' := same.symm.subset hr
    refine ⟨r, hr, rfl, single.nodup_predecessors hr', fun u => ?_⟩
    rw [single.predecessors_eq hr', single.mem_writers hr']
    simp [same.mem_iff]
  have layers : LayeredKahn.Layers (predecessors (it.inOrder table new)) nodes level := by
    refine ⟨fun v hv u hu => ?_, fun v hv high => ?_⟩
    · obtain ⟨r, hr, rfl, -, preds⟩ := edges hv
      obtain ⟨w, hw, rfl, feeds⟩ := (preds u).mp hu
      exact leveled.above w hw r hr feeds
    · obtain ⟨r, hr, rfl, -, preds⟩ := edges hv
      obtain ⟨w, hw, feeds, up⟩ := leveled.next r hr high
      exact ⟨w.name, (preds _).mpr ⟨w, hw, rfl, feeds⟩, up⟩
  have perm : order.Perm nodes := by
    refine ordered.perm nodup (fun v hv u hu => ?_) (fun v hv => ?_) layers.above
    · obtain ⟨r, hr, rfl, -, preds⟩ := edges hv
      obtain ⟨w, hw, rfl, -⟩ := (preds u).mp hu
      exact (all _).mpr (List.mem_map_of_mem hw)
    · obtain ⟨r, -, rfl, distinct, -⟩ := edges hv
      exact distinct
  have mem : new.name ∈ nodes := (all _).mpr (List.mem_map_of_mem (by simp [withRule]))
  have length : order.length = table.length + 1 := by
    rw [perm.length_eq, named.length_eq, List.length_map, length_withRule]
  have position := List.idxOf_lt_length_of_mem (perm.mem_iff.mpr mem)
  have counted (P : String → Bool) :
      nodes.countP P = (withRule table new).countP fun r => P r.name := by
    rw [named.countP_eq, List.countP_map]
    rfl
  refine ⟨order.idxOf new.name, ?_, by omega, ?_, ?_⟩
  · rw [result, if_neg (by omega)]
  · rw [← counted fun u => level u < level new.name]
    exact ordered.countP_le_idxOf perm layers mem
  · rw [← counted fun u => level u ≤ level new.name]
    exact ordered.idxOf_lt_countP perm layers mem

end SingleWriter

end Order

end PgRipple.Construct
