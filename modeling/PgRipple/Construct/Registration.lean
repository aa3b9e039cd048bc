import Mathlib.Data.List.Sort
import Mathlib.Order.Defs.LinearOrder
import PgRipple.Construct.Scheduler
import PgRipple.Datalog.Neck
import PgRipple.Lib.Run

/-!
# Registering CONSTRUCT rules

A call computes the order of its rule and stores it; the orders of the other rules stay. A call
that fails leaves the table as it is.
-/

namespace PgRipple.Construct

open Datalog.Neck (byteLength)

structure CreateCall where
  name : String
  mode : String
  targetGraph : String
  /-- The pattern of the query, or what its compilation reports. -/
  compiled : Except String GraphPattern
  iteration : Iteration

/-- The checks of a call; what it registers is a rule. -/
def CreateCall.check (c : CreateCall) : Except String Rule :=
  if c.name.isEmpty ∨ byteLength c.name.toList > 63 then
    .error "construct rule name must be 1–63 characters"
  else if ¬ c.name.toList.all fun ch => ch.isAlphanum || ch = '_' then
    .error "construct rule name must contain only ASCII letters, digits, and underscores"
  else if c.mode ≠ "incremental" ∧ c.mode ≠ "full" then
    .error "construct rule mode must be 'incremental' or 'full'"
  else
    c.compiled.bind fun pattern =>
      let sourceGraphs := c.iteration.sourceGraphs (collectSourceGraphs pattern)
      if c.targetGraph ∈ sourceGraphs then
        .error ("construct rule '" ++ c.name ++ "' reads from and writes to the same graph '" ++
          c.targetGraph ++ "' — cycle not allowed")
      else .ok ⟨c.name, c.targetGraph, sourceGraphs⟩

/-- `INSERT … ON CONFLICT (name) DO UPDATE`. -/
def upsert (table : List ConstructRule) (row : ConstructRule) : List ConstructRule :=
  if row.name ∈ table.map (·.name) then table.map fun r => if r.name = row.name then row else r
  else table ++ [row]

def createConstructRule (table : List ConstructRule) (c : CreateCall) :
    Except String (List ConstructRule) :=
  c.check.bind fun new =>
    (computeRuleOrder c.iteration table new).map fun ruleOrder =>
      upsert table { new with ruleOrder }

def step (table : List ConstructRule) (c : CreateCall) : Option (List ConstructRule) :=
  match createConstructRule table c with
  | .ok table' => some table'
  | .error _ => some table

/-- The rules if the call succeeds. -/
def registered (table : List ConstructRule) (new : Rule) : List Rule :=
  (upsert table { new with ruleOrder := 0 }).map (·.toRule)

/-- The scheduler refuses exactly the rules that close a cycle. -/
def RejectsCycles (table : List ConstructRule) (c : CreateCall) : Prop :=
  ∀ new, c.check = .ok new →
    ((∃ text, computeRuleOrder c.iteration table new = .error text) ↔
      Cyclic (registered table new))

/-- Every rule comes after those that write a graph that it reads. -/
def Ordered (table : List ConstructRule) : Prop :=
  ∀ w ∈ table, ∀ r ∈ table, w.toRule.Feeds r.toRule → w.ruleOrder < r.ruleOrder

/-- The rule closes a cycle, or its name is new and no rule reads its target graph. With a new
name, no graph that is read has two writers. -/
def Schedulable (table : List ConstructRule) (c : CreateCall) : Prop :=
  ∀ new, c.check = .ok new →
    (new.name ∉ table.map (·.name) → OneWriter (withRule table new)) ∧
      (Cyclic (registered table new) ∨
        new.name ∉ table.map (·.name) ∧ (∀ r ∈ table, ¬ new.Feeds r.toRule) ∧
          table.length < 2 ^ 31)

structure Scheduled (table : List ConstructRule) : Prop where
  single : SingleWriter (table.map (·.toRule))
  /-- A stored order is less than the number of rules up to that level. -/
  layered : ∃ level, Leveled (table.map (·.toRule)) level ∧ ∀ r ∈ table,
    r.ruleOrder < (table.map (·.toRule)).countP fun s => level s.name ≤ level r.name
  ordered : Ordered table

theorem scheduled_nil : Scheduled [] where
  single := ⟨List.nodup_nil, by simp [OneWriter], by simp, by simp⟩
  layered := ⟨fun _ => 0, ⟨by simp, by simp⟩, by simp⟩
  ordered := by simp [Ordered]

variable {table table' : List ConstructRule} {c : CreateCall} {new : Rule}

theorem check_spec (checked : c.check = .ok new) :
    new.sourceGraphs.Nodup ∧ ¬ new.Feeds new := by
  rw [CreateCall.check] at checked
  split_ifs at checked
  cases compiled : c.compiled with
  | error text =>
    rw [compiled] at checked
    cases checked
  | ok pattern =>
    rw [compiled] at checked
    replace checked : (if c.targetGraph ∈ c.iteration.sourceGraphs (collectSourceGraphs pattern)
      then _ else _) = Except.ok new := checked
    split_ifs at checked with self
    cases checked
    refine ⟨?_, self⟩
    exact (c.iteration.sourceGraphs_perm _).nodup_iff.mpr (List.nodup_dedup _)

theorem registered_of_fresh (fresh : new.name ∉ table.map (·.name)) :
    registered table new = withRule table new := by
  rw [registered, upsert, if_neg fresh, List.map_append, withRule]
  rfl

theorem Scheduled.singleWriter (h : Scheduled table) (checked : c.check = .ok new)
    (fresh : new.name ∉ table.map (·.name)) (one : OneWriter (withRule table new)) :
    SingleWriter (withRule table new) := by
  obtain ⟨nodup, apart⟩ := check_spec checked
  refine ⟨?_, one, fun r mem => ?_, fun r mem => ?_⟩
  · rw [withRule, List.map_append]
    refine h.single.names.append (List.nodup_singleton _) (List.disjoint_singleton.mpr ?_)
    rwa [List.map_map]
  · obtain mem | mem := List.mem_append.mp mem
    · exact h.single.sources r mem
    · rwa [List.mem_singleton.mp mem]
  · obtain mem | mem := List.mem_append.mp mem
    · exact h.single.apart r mem
    · rwa [List.mem_singleton.mp mem]

/-- A new rule that is not read gets an order behind what it reads. -/
theorem Scheduled.append (h : Scheduled table) (single : SingleWriter (withRule table new))
    (fresh : new.name ∉ table.map (·.name)) (unread : ∀ r ∈ table, ¬ new.Feeds r.toRule)
    (bound : table.length < 2 ^ 31) (it : Iteration) : ¬ Cyclic (withRule table new) ∧
      ∃ pos, computeRuleOrder it table new = .ok pos ∧
        Scheduled (table ++ [{ new with ruleOrder := pos }]) := by
  have mem : new ∈ withRule table new := by simp [withRule]
  obtain ⟨level, leveled, stored⟩ := h.layered
  obtain ⟨level', kept, leveled'⟩ := leveled.extend new
    (by rwa [List.map_map]) (by simpa using unread) (single.apart new mem)
  have keptRow : ∀ r ∈ table, level' r.name = level r.name := fun r hr =>
    kept r.toRule (List.mem_map_of_mem hr)
  obtain ⟨pos, result, small, behind, within⟩ := computeRuleOrder_of_leveled single it leveled'
  have plain : Int.bmod pos (2 ^ 32) = pos := by
    rw [Int.bmod_eq_of_le] <;> omega
  rw [plain] at result
  -- the rules up to a level, counted with the new one
  have grows (r : ConstructRule) (hr : r ∈ table) :
      (table.map (·.toRule)).countP (fun s => level s.name ≤ level r.name) ≤
        (withRule table new).countP fun s => level' s.name ≤ level' r.name := by
    rw [withRule, List.countP_append, keptRow r hr]
    refine Nat.le_trans (Nat.le_of_eq ?_) (Nat.le_add_right _ _)
    refine List.countP_congr fun s hs => ?_
    rw [kept s hs]
  refine ⟨not_cyclic (fun r => level' r.name) leveled'.above, pos, result, ?_, ?_, ?_⟩
  · rw [List.map_append]
    exact single
  · rw [List.map_append]
    refine ⟨level', leveled', fun r hr => ?_⟩
    obtain hr | hr := List.mem_append.mp hr
    · exact Int.lt_of_lt_of_le (stored r hr) (Int.ofNat_le.mpr (grows r hr))
    · rw [List.mem_singleton.mp hr]
      exact Int.ofNat_lt.mpr within
  · intro w hw r hr feeds
    obtain hr | hr := List.mem_append.mp hr
    · obtain hw | hw := List.mem_append.mp hw
      · exact h.ordered w hw r hr feeds
      · rw [List.mem_singleton.mp hw] at feeds
        exact absurd feeds (unread r hr)
    · rw [List.mem_singleton.mp hr] at feeds ⊢
      obtain hw | hw := List.mem_append.mp hw
      · -- all rules up to the level of `w` are below the new one
        have above := leveled'.above w.toRule
          (List.mem_append_left _ (List.mem_map_of_mem hw)) new mem feeds
        have below : (withRule table new).countP (fun s => level' s.name ≤ level' w.name) ≤
            (withRule table new).countP fun s => level' s.name < level' new.name := by
          refine List.countP_mono_left fun s _ low => ?_
          rw [decide_eq_true_eq] at low ⊢
          omega
        have before := stored w hw
        have := grows w hw
        show w.ruleOrder < (pos : Int)
        omega
      · rw [List.mem_singleton.mp hw] at feeds
        exact absurd feeds (single.apart new mem)

/-- What a call computes, and what it does to the invariant. -/
theorem Scheduled.compute (h : Scheduled table) (guard : Schedulable table c)
    (checked : c.check = .ok new) :
    (Cyclic (registered table new) ∧
      ∃ text, computeRuleOrder c.iteration table new = .error text) ∨
    (¬ Cyclic (registered table new) ∧ ∃ pos, computeRuleOrder c.iteration table new = .ok pos ∧
      Scheduled (upsert table { new with ruleOrder := pos })) := by
  obtain ⟨one, closes⟩ := guard new checked
  by_cases fresh : new.name ∈ table.map (·.name)
  · have cyclic := closes.resolve_right fun h => h.1 fresh
    exact .inl ⟨cyclic, error_of_redefined _ fresh⟩
  · have single := h.singleWriter checked fresh (one fresh)
    rw [registered_of_fresh fresh] at closes ⊢
    obtain cyclic | ⟨-, unread, bound⟩ := closes
    · exact .inl ⟨cyclic, error_of_cyclic single _ cyclic⟩
    · refine .inr ?_
      obtain ⟨acyclic, pos, result, scheduled⟩ :=
        h.append single fresh unread bound c.iteration
      refine ⟨acyclic, pos, result, ?_⟩
      rw [upsert, if_neg fresh]
      exact scheduled

theorem Scheduled.step (h : Scheduled table) (guard : Schedulable table c)
    (stepped : step table c = some table') : Scheduled table' := by
  rw [Construct.step, createConstructRule] at stepped
  cases checked : c.check with
  | error text =>
    rw [checked] at stepped
    cases stepped
    exact h
  | ok new =>
    rw [checked] at stepped
    obtain ⟨-, text, result⟩ | ⟨-, pos, result, scheduled⟩ := h.compute guard checked
    · simp only [Except.bind, result, Except.map, Option.some.injEq] at stepped
      exact stepped ▸ h
    · simp only [Except.bind, result, Except.map, Option.some.injEq] at stepped
      exact stepped ▸ scheduled

theorem Scheduled.rejectsCycles (h : Scheduled table) (guard : Schedulable table c) :
    RejectsCycles table c := by
  intro new checked
  obtain ⟨cyclic, failed⟩ | ⟨acyclic, pos, result, -⟩ := h.compute guard checked
  · exact iff_of_true failed cyclic
  · refine iff_of_false (fun failed => ?_) acyclic
    obtain ⟨text, failed⟩ := failed
    rw [result] at failed
    cases failed

/-- The rows by a stable sort, and the maps in the order of insertion. -/
def insertionOrder : Iteration where
  rows := List.insertionSort fun r s => r.ruleOrder ≤ s.ruleOrder
  sourceGraphs := id
  inDegree := id
  predecessors := id
  rows_perm := List.perm_insertionSort _
  rows_sorted := fun table => List.pairwise_insertionSort _ table
  sourceGraphs_perm := List.Perm.refl
  inDegree_perm := List.Perm.refl
  predecessors_perm := List.Perm.refl

/-- A rule that writes the graph `g`. -/
def writerCall : CreateCall :=
  ⟨"writer", "full", "g", .ok .other, insertionOrder⟩

/-- A rule that reads the graph `g`. -/
def readerCall : CreateCall :=
  ⟨"reader", "full", "h", .ok (.graph (.namedNode "g") .other), insertionOrder⟩

end PgRipple.Construct
