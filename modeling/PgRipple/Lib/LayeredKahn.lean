import Mathlib.Data.List.Basic
import Mathlib.Data.List.Count
import Mathlib.Data.List.Nodup
import Mathlib.Data.List.Perm.Subperm
import Mathlib.Logic.Function.Basic

/-!
# Kahn's algorithm with a queue

The nodes are given with lists of predecessors, in which a node can occur more than once. The
algorithm counts the predecessors of a node with repetitions, but takes one off for each node that
it processes. In which order it meets the nodes, at the start and in each round, is left open.

No node is processed twice, and none before its predecessors. If the graph has no cycle and no
predecessor is repeated, then all nodes are processed. As the queue is first in, first out, they
are processed layer by layer: the position of a node is at least the number of nodes on lower
layers.
-/

namespace LayeredKahn

variable {α : Type*} [DecidableEq α]

structure State (α : Type*) where
  /-- `none`: the node has no entry. -/
  degree : α → Option Nat
  queue : List α
  order : List α

section Algorithm

variable (preds : α → List α)

/-- The entries of the nodes, and the nodes without predecessors. -/
def start (nodes met : List α) : State α where
  degree v := if v ∈ nodes then some (preds v).length else none
  queue := met.filter fun v => (preds v).length = 0
  order := []

/-- The node `v` is met after `n` was processed. An error names a node without an entry. -/
def relax (n : α) (s : State α) (v : α) : Except α (State α) :=
  if n ∈ preds v then
    match s.degree v with
    | none => .error v
    | some degree =>
      let degree := degree - 1
      .ok { s with
        degree := Function.update s.degree v (some degree)
        queue := if degree = 0 then s.queue ++ [v] else s.queue }
  else .ok s

/-- Process the queue, for at most `fuel` nodes; `met` is the order in which nodes are met. -/
def run (met : List α) : (fuel : Nat) → State α → Except α (State α)
  | 0, s => .ok s
  | fuel + 1, s =>
    match s.queue with
    | [] => .ok s
    | n :: rest =>
      (met.foldlM (relax preds n) { s with queue := rest, order := s.order ++ [n] }).bind
        (run met fuel)

end Algorithm

/-- Every node is met, and the predecessors are nodes. -/
structure Nodes (preds : α → List α) (nodes met : List α) : Prop where
  nodup : nodes.Nodup
  met : met.Perm nodes
  closed : ∀ v ∈ nodes, preds v ⊆ nodes

variable {preds : α → List α} {nodes met rest o : List α} {n v : α} {s s' : State α}

/-- A predecessor that is missing is not counted. -/
theorem countP_lt {ps : List α} (nodup : o.Nodup) (fresh : n ∉ o) (mem : n ∈ ps) :
    o.countP (· ∈ ps) < ps.length := by
  have distinct : (n :: o.filter (· ∈ ps)).Nodup :=
    List.nodup_cons.mpr ⟨fun h => fresh (List.mem_filter.mp h).1, nodup.filter _⟩
  have inside : n :: o.filter (· ∈ ps) ⊆ ps := by
    refine List.cons_subset.mpr ⟨mem, fun u hu => ?_⟩
    simpa using (List.mem_filter.mp hu).2
  have := (List.subperm_of_subset distinct inside).length_le
  rw [List.length_cons, ← List.countP_eq_length_filter] at this
  omega

/-- If as many are counted as there are, then none is missing. -/
theorem subset_of_countP {ps : List α} (nodup : o.Nodup) (all : o.countP (· ∈ ps) = ps.length) :
    ps ⊆ o := by
  intro n mem
  by_contra fresh
  have := countP_lt nodup fresh mem
  omega

theorem countP_of_subset {ps : List α} (nodup : o.Nodup) (distinct : ps.Nodup) (sub : ps ⊆ o) :
    o.countP (· ∈ ps) = ps.length := by
  rw [List.countP_eq_length_filter]
  apply List.Perm.length_eq
  refine (List.perm_ext_iff_of_nodup (nodup.filter _) distinct).mpr fun u => ?_
  rw [List.mem_filter, decide_eq_true_eq]
  exact and_iff_right_of_imp fun mem => sub mem

/-- What a node has been told about: those in `rest` have not been met since `n`. -/
def told (o : List α) (n : α) (rest : List α) (v : α) : List α := if v ∈ rest then o else o ++ [n]

/-- The invariant, with what each node has been told about. -/
structure Inv (preds : α → List α) (nodes : List α) (toldOf : α → List α) (s : State α) :
    Prop where
  nodup : (s.order ++ s.queue).Nodup
  inside : s.order ++ s.queue ⊆ nodes
  degree : ∀ v ∈ nodes, ∃ d, s.degree v = some d ∧
    d + (toldOf v).countP (· ∈ preds v) = (preds v).length
  ready : ∀ v ∈ nodes, v ∈ s.order ++ s.queue ↔ s.degree v = some 0
  sound : ∀ pre v post, s.order = pre ++ v :: post → preds v ⊆ pre

theorem inv_start (h : Nodes preds nodes met) :
    Inv preds nodes (fun _ => []) (start preds nodes met) where
  nodup := (h.met.nodup_iff.mpr h.nodup).filter _
  inside := fun _ mem => h.met.subset (List.mem_filter.mp mem).1
  degree := fun v mem => ⟨(preds v).length, if_pos mem, rfl⟩
  ready := by
    intro v mem
    have entry : (start preds nodes met).degree v = some (preds v).length := if_pos mem
    rw [entry, Option.some.injEq]
    have queued : v ∈ (start preds nodes met).queue ↔ (preds v).length = 0 := by
      simp [start, h.met.mem_iff, mem]
    exact queued
  sound := fun pre v post split => by simp [start] at split

/-- A node is told about the last one that was processed. -/
theorem Inv.relax (h : Inv preds nodes (told o n (v :: rest)) s) (order : s.order = o ++ [n])
    (fresh : v ∉ rest) (mem : v ∈ nodes) : ∃ s', LayeredKahn.relax preds n s v = .ok s' ∧
      s'.order = s.order ∧ Inv preds nodes (told o n rest) s' := by
  have others (w : α) (other : w ≠ v) : told o n rest w = told o n (v :: rest) w := by
    simp [told, other]
  have before : told o n (v :: rest) v = o := if_pos List.mem_cons_self
  have after : told o n rest v = o ++ [n] := if_neg fresh
  have processed : (o ++ [n]).Nodup := order ▸ (List.nodup_append.mp h.nodup).1
  obtain ⟨d, entry, counted⟩ := h.degree v mem
  rw [before] at counted
  rw [LayeredKahn.relax]
  by_cases edge : n ∈ preds v
  · rw [if_pos edge, entry]
    have missing : n ∉ o := fun old => List.disjoint_of_nodup_append processed old (by simp)
    have less := countP_lt (List.nodup_append.mp processed).1 missing edge
    have unready : v ∉ s.order ++ s.queue := by
      rw [h.ready v mem, entry, Option.some.injEq]
      omega
    have queue : s.order ++ (if d - 1 = 0 then s.queue ++ [v] else s.queue) =
        s.order ++ s.queue ++ if d - 1 = 0 then [v] else [] := by
      split_ifs <;> simp
    refine ⟨_, rfl, rfl, ?_, ?_, fun w hw => ?_, fun w hw => ?_, h.sound⟩ <;> dsimp only
    · rw [queue]
      split_ifs
      · exact h.nodup.append (List.nodup_singleton v) (List.disjoint_singleton.mpr unready)
      · rw [List.append_nil]
        exact h.nodup
    · rw [queue]
      intro w hw
      obtain old | new := List.mem_append.mp hw
      · exact h.inside old
      · split_ifs at new
        · rwa [List.mem_singleton.mp new]
        · exact absurd new List.not_mem_nil
    · by_cases same : w = v
      · subst same
        rw [Function.update_self, after, List.countP_append, List.countP_singleton,
          if_pos (decide_eq_true edge)]
        exact ⟨d - 1, rfl, by omega⟩
      · rw [Function.update_of_ne same, others w same]
        exact h.degree w hw
    · rw [queue]
      by_cases same : w = v
      · subst same
        rw [Function.update_self, Option.some.injEq, List.mem_append, or_iff_right unready]
        split_ifs with zero <;> simp [zero]
      · rw [Function.update_of_ne same, ← h.ready w hw, List.mem_append, or_iff_left]
        split_ifs <;> simp [same]
  · rw [if_neg edge]
    refine ⟨s, rfl, rfl, h.nodup, h.inside, fun w hw => ?_, h.ready, h.sound⟩
    by_cases same : w = v
    · subst same
      refine ⟨d, entry, ?_⟩
      rw [after, List.countP_append, List.countP_singleton, if_neg (by simpa using edge)]
      exact counted
    · rw [others w same]
      exact h.degree w hw

/-- A node without predecessors is on layer 0, any other one right above the highest of them. -/
structure Layers (preds : α → List α) (nodes : List α) (level : α → Nat) : Prop where
  above : ∀ v ∈ nodes, ∀ u ∈ preds v, level u < level v
  next : ∀ v ∈ nodes, level v ≠ 0 → ∃ u ∈ preds v, level v = level u + 1

/-- The queue holds nodes of the layer `top` and then of the next one. -/
structure Layered (level : α → Nat) (top : Nat) (s : State α) : Prop where
  sorted : (s.order ++ s.queue).Pairwise fun u v => level u ≤ level v
  low : ∀ v ∈ s.queue, top ≤ level v
  high : ∀ v ∈ s.queue, level v ≤ top + 1

omit [DecidableEq α] in
/-- The layer right above some nodes. -/
theorem exists_above (level : α → Nat) (us : List α) :
    ∃ top, (∀ u ∈ us, level u < top) ∧ (top ≠ 0 → ∃ u ∈ us, top = level u + 1) := by
  induction us with
  | nil => exact ⟨0, fun u mem => absurd mem List.not_mem_nil, fun h => absurd rfl h⟩
  | cons u us ih =>
    obtain ⟨top, above, next⟩ := ih
    by_cases low : level u < top
    · refine ⟨top, List.forall_mem_cons.mpr ⟨low, above⟩, fun high => ?_⟩
      obtain ⟨w, mem, up⟩ := next high
      exact ⟨w, List.mem_cons_of_mem u mem, up⟩
    · refine ⟨level u + 1, List.forall_mem_cons.mpr ⟨Nat.lt_succ_self _, fun w mem => ?_⟩,
        fun _ => ⟨u, List.mem_cons_self, rfl⟩⟩
      have := above w mem
      omega

variable {level : α → Nat}

theorem layered_start (h : Nodes preds nodes met) (layers : Layers preds nodes level) :
    Layered level 0 (start preds nodes met) := by
  have bottom : ∀ v ∈ (start preds nodes met).queue, level v = 0 := by
    intro v mem
    obtain ⟨mem, none'⟩ := List.mem_filter.mp mem
    by_contra high
    obtain ⟨u, hu, -⟩ := layers.next v (h.met.subset mem) high
    rw [List.eq_nil_of_length_eq_zero (of_decide_eq_true none')] at hu
    exact absurd hu List.not_mem_nil
  refine ⟨?_, fun v _ => Nat.zero_le _, fun v mem => by rw [bottom v mem]; omega⟩
  refine List.Pairwise.imp_of_mem (R := fun _ _ => True) ?_
    (List.pairwise_of_forall fun _ _ => trivial)
  intro u v hu hv _
  exact Nat.le_of_eq ((bottom u hu).trans (bottom v hv).symm)

theorem queue_relax (relaxed : relax preds n s v = .ok s') :
    s'.queue = s.queue ∨ n ∈ preds v ∧ s'.queue = s.queue ++ [v] := by
  rw [relax] at relaxed
  split at relaxed
  · rename_i edge
    split at relaxed
    · cases relaxed
    · cases relaxed
      dsimp only
      split_ifs
      · exact .inr ⟨edge, rfl⟩
      · exact .inl rfl
  · cases relaxed
    exact .inl rfl

/-- A node that has been told about all its predecessors comes after them. -/
theorem Inv.preds_subset {toldOf : α → List α} (h : Inv preds nodes toldOf s)
    (nodup : (toldOf v).Nodup) (mem : v ∈ s.order ++ s.queue) : preds v ⊆ toldOf v := by
  obtain ⟨d, entry, counted⟩ := h.degree v (h.inside mem)
  have zero := (h.ready v (h.inside mem)).mp mem
  rw [entry, Option.some.injEq] at zero
  exact subset_of_countP nodup (by omega)

/-- What becomes ready after `n` is on the next layer. -/
theorem Layered.relax (layered : Layered level (level n) s) (layers : Layers preds nodes level)
    (inv : Inv preds nodes (told o n rest) s') (order : s.order = o ++ [n])
    (order' : s'.order = s.order) (fresh : v ∉ rest) (mem : v ∈ nodes)
    (relaxed : LayeredKahn.relax preds n s v = .ok s') : Layered level (level n) s' := by
  obtain same | ⟨edge, pushed⟩ := queue_relax relaxed
  · exact ⟨by rw [order', same]; exact layered.sorted, by rw [same]; exact layered.low,
      by rw [same]; exact layered.high⟩
  · have processed : (o ++ [n]).Nodup := by
      rw [← order, ← order']
      exact (List.nodup_append.mp inv.nodup).1
    have after : told o n rest v = o ++ [n] := if_neg fresh
    have earlier : preds v ⊆ o ++ [n] := by
      rw [← after]
      refine inv.preds_subset (by rwa [after]) ?_
      rw [pushed]
      simp
    have sorted : (o ++ [n]).Pairwise fun u v => level u ≤ level v := by
      rw [← order]
      exact (List.pairwise_append.mp layered.sorted).1
    have below {u : α} (hu : u ∈ o ++ [n]) : level u ≤ level n := by
      obtain old | last := List.mem_append.mp hu
      · exact (List.pairwise_append.mp sorted).2.2 u old n (by simp)
      · exact Nat.le_of_eq (congrArg level (List.mem_singleton.mp last))
    have here : level v = level n + 1 := by
      have above := layers.above v mem n edge
      obtain ⟨u, hu, up⟩ := layers.next v mem (by omega)
      have := below (earlier hu)
      omega
    refine ⟨?_, ?_, ?_⟩
    · rw [order', pushed, ← List.append_assoc, List.pairwise_append]
      refine ⟨layered.sorted, List.pairwise_singleton _ _, fun u hu w hw => ?_⟩
      rw [List.mem_singleton.mp hw, here]
      obtain old | queued := List.mem_append.mp hu
      · have := below (order ▸ old)
        omega
      · exact layered.high u queued
    · rw [pushed]
      intro w hw
      obtain old | new := List.mem_append.mp hw
      · exact layered.low w old
      · rw [List.mem_singleton.mp new, here]
        exact Nat.le_succ _
    · rw [pushed]
      intro w hw
      obtain old | new := List.mem_append.mp hw
      · exact layered.high w old
      · exact Nat.le_of_eq ((congrArg level (List.mem_singleton.mp new)).trans here)

/-- A state between two rounds. -/
structure Good (preds : α → List α) (nodes : List α) (s : State α) : Prop where
  inv : Inv preds nodes (fun _ => s.order) s
  layered : ∀ level, Layers preds nodes level → ∃ top, Layered level top s

theorem good_start (h : Nodes preds nodes met) : Good preds nodes (start preds nodes met) :=
  ⟨inv_start h, fun _ layers => ⟨0, layered_start h layers⟩⟩

theorem Inv.scan (h : Inv preds nodes (told o n rest) s) (order : s.order = o ++ [n])
    (layered : ∀ level, Layers preds nodes level → Layered level (level n) s)
    (nodup : rest.Nodup) (inside : rest ⊆ nodes) :
    ∃ s', rest.foldlM (LayeredKahn.relax preds n) s = .ok s' ∧ s'.order = o ++ [n] ∧
      Good preds nodes s' := by
  induction rest generalizing s with
  | nil =>
    have all : told o n [] = fun _ => s.order := by
      funext v
      rw [told, if_neg List.not_mem_nil, order]
    exact ⟨s, rfl, order, all ▸ h, fun level layers => ⟨_, layered level layers⟩⟩
  | cons v rest ih =>
    obtain ⟨fresh, nodup⟩ := List.nodup_cons.mp nodup
    obtain ⟨mem, inside⟩ := List.cons_subset.mp inside
    obtain ⟨s', relaxed, order', inv⟩ := h.relax order fresh mem
    rw [List.foldlM_cons, relaxed]
    exact ih inv (order'.trans order) (fun level layers =>
      (layered level layers).relax layers inv order order' fresh mem relaxed) nodup inside

theorem Inv.pop (h : Inv preds nodes (fun _ => s.order) s) (g : Nodes preds nodes met)
    (queue : s.queue = n :: rest) : Inv preds nodes (told s.order n met)
      { s with queue := rest, order := s.order ++ [n] } := by
  have same : s.order ++ [n] ++ rest = s.order ++ s.queue := by simp [queue]
  refine ⟨?_, ?_, fun v hv => ?_, fun v hv => ?_, fun pre v post split => ?_⟩
  · show (s.order ++ [n] ++ rest).Nodup
    rw [same]
    exact h.nodup
  · show s.order ++ [n] ++ rest ⊆ nodes
    rw [same]
    exact h.inside
  · have untold : told s.order n met v = s.order := if_pos (g.met.mem_iff.mpr hv)
    rw [untold]
    exact h.degree v hv
  · show v ∈ s.order ++ [n] ++ rest ↔ _
    rw [same]
    exact h.ready v hv
  · have split : s.order ++ [n] = pre ++ v :: post := split
    cases List.eq_nil_or_concat post with
    | inl last =>
      subst last
      obtain ⟨rfl, tail⟩ := List.append_inj' split rfl
      cases tail
      exact h.preds_subset (List.nodup_append.mp h.nodup).1 (by simp [queue])
    | inr more =>
      obtain ⟨post', z, rfl⟩ := more
      have split' : s.order ++ [n] = (pre ++ v :: post') ++ [z] := by simpa using split
      exact h.sound pre v post' (List.append_inj' split' rfl).1

omit [DecidableEq α] in
theorem Layered.pop {top : Nat} (h : Layered level top s) (queue : s.queue = n :: rest) :
    Layered level (level n) { s with queue := rest, order := s.order ++ [n] } := by
  have same : s.order ++ [n] ++ rest = s.order ++ s.queue := by simp [queue]
  have first := h.low n (by simp [queue])
  refine ⟨?_, fun v hv => ?_, fun v hv => ?_⟩
  · show (s.order ++ [n] ++ rest).Pairwise _
    rw [same]
    exact h.sorted
  · have sorted := (List.pairwise_append.mp h.sorted).2.1
    rw [queue] at sorted
    exact (List.pairwise_cons.mp sorted).1 v hv
  · have hv : v ∈ rest := hv
    have := h.high v (by simp [queue, hv])
    omega

/-- The loop ends with an empty queue. -/
theorem Good.run (h : Good preds nodes s) (g : Nodes preds nodes met) (fuel : Nat)
    (enough : nodes.length ≤ s.order.length + fuel) :
    ∃ s', LayeredKahn.run preds met fuel s = .ok s' ∧ s'.queue = [] ∧ Good preds nodes s' := by
  induction fuel generalizing s with
  | zero =>
    refine ⟨s, rfl, ?_, h⟩
    have bound := (List.subperm_of_subset h.inv.nodup h.inv.inside).length_le
    rw [List.length_append] at bound
    exact List.eq_nil_of_length_eq_zero (by omega)
  | succ fuel ih =>
    rw [LayeredKahn.run]
    split
    · exact ⟨s, rfl, ‹_›, h⟩
    · rename_i n rest queue
      have layered (level : α → Nat) (layers : Layers preds nodes level) :
          Layered level (level n) { s with queue := rest, order := s.order ++ [n] } := by
        obtain ⟨top, before⟩ := h.layered level layers
        exact before.pop queue
      obtain ⟨s', scanned, order, good⟩ := (h.inv.pop g queue).scan rfl layered
        (g.met.nodup_iff.mpr g.nodup) g.met.subset
      rw [scanned]
      refine ih good ?_
      rw [order, List.length_append, List.length_singleton]
      omega

/-- The nodes in the order in which they are processed. -/
def topoOrder (preds : α → List α) (nodes met queued : List α) : Except α (List α) :=
  (run preds met nodes.length (start preds nodes queued)).map State.order

/-- What is known of the order. -/
structure Ordered (preds : α → List α) (nodes order : List α) : Prop where
  nodup : order.Nodup
  inside : order ⊆ nodes
  sound : ∀ pre v post, order = pre ++ v :: post → preds v ⊆ pre
  /-- A node is missing only after one of its predecessors, or if one is repeated. -/
  complete : ∀ v ∈ nodes, (preds v).Nodup → preds v ⊆ order → v ∈ order
  layered : ∀ level, Layers preds nodes level → order.Pairwise fun u v => level u ≤ level v

theorem topoOrder_spec {queued : List α} (g : Nodes preds nodes met) (all : queued.Perm nodes) :
    ∃ order, topoOrder preds nodes met queued = .ok order ∧ Ordered preds nodes order := by
  have begins : Good preds nodes (start preds nodes queued) := good_start ⟨g.nodup, all, g.closed⟩
  obtain ⟨s, ran, empty, good⟩ := begins.run g nodes.length (Nat.le_add_left _ _)
  refine ⟨s.order, by rw [topoOrder, ran]; rfl, ?_⟩
  have nodup := (List.nodup_append.mp good.inv.nodup).1
  refine ⟨nodup, fun v hv => good.inv.inside (List.mem_append_left _ hv), good.inv.sound,
    fun v hv distinct sub => ?_, fun level layers => ?_⟩
  · obtain ⟨d, entry, counted⟩ := good.inv.degree v hv
    rw [countP_of_subset nodup distinct sub] at counted
    have ready := (good.inv.ready v hv).mpr (by rw [entry, Option.some.injEq]; omega)
    rwa [empty, List.append_nil] at ready
  · obtain ⟨top, layered⟩ := good.layered level layers
    exact (List.pairwise_append.mp layered.sorted).1

namespace Ordered

variable {order : List α}

omit [DecidableEq α] in
/-- Layers are enough for an order of all nodes. -/
theorem perm (h : Ordered preds nodes order) (nodup : nodes.Nodup)
    (closed : ∀ v ∈ nodes, preds v ⊆ nodes) (distinct : ∀ v ∈ nodes, (preds v).Nodup)
    (above : ∀ v ∈ nodes, ∀ u ∈ preds v, level u < level v) : order.Perm nodes := by
  have all (v : α) (hv : v ∈ nodes) : v ∈ order := by
    induction layer : level v using Nat.strongRecOn generalizing v with
    | _ k ih =>
      refine h.complete v hv (distinct v hv) fun u hu => ?_
      exact ih (level u) (layer ▸ above v hv u hu) u (closed v hv hu) rfl
  exact (List.perm_ext_iff_of_nodup h.nodup nodup).mpr fun v => ⟨fun hv => h.inside hv, all v⟩

theorem idxOf_lt {u : α} (h : Ordered preds nodes order) (mem : v ∈ order) (edge : u ∈ preds v) :
    order.idxOf u < order.idxOf v := by
  obtain ⟨pre, post, split⟩ := List.append_of_mem mem
  have nodup := h.nodup
  rw [split] at nodup
  have fresh : v ∉ pre := fun old => List.disjoint_of_nodup_append nodup old List.mem_cons_self
  have before : u ∈ pre := h.sound pre v post split edge
  rw [split, List.idxOf_append_of_mem before, List.idxOf_append_of_notMem fresh,
    List.idxOf_cons_self, Nat.add_zero]
  exact List.idxOf_lt_length_of_mem before

/-- The nodes before `v` are not on higher layers, and those after it not on lower ones. -/
theorem split_at (h : Ordered preds nodes order) (layers : Layers preds nodes level)
    (mem : v ∈ order) : ∃ pre post, order = pre ++ v :: post ∧ order.idxOf v = pre.length ∧
      (∀ u ∈ pre, level u ≤ level v) ∧ ∀ u ∈ post, level v ≤ level u := by
  obtain ⟨pre, post, split⟩ := List.append_of_mem mem
  have sorted := h.layered level layers
  have nodup := h.nodup
  rw [split] at sorted nodup
  have fresh : v ∉ pre := fun old => List.disjoint_of_nodup_append nodup old List.mem_cons_self
  obtain ⟨-, after, before⟩ := List.pairwise_append.mp sorted
  refine ⟨pre, post, split, ?_, fun u hu => before u hu v List.mem_cons_self,
    (List.pairwise_cons.mp after).1⟩
  rw [split, List.idxOf_append_of_notMem fresh, List.idxOf_cons_self, Nat.add_zero]

/-- All nodes on lower layers come before. -/
theorem countP_le_idxOf (h : Ordered preds nodes order) (all : order.Perm nodes)
    (layers : Layers preds nodes level) (mem : v ∈ nodes) :
    nodes.countP (fun u => level u < level v) ≤ order.idxOf v := by
  obtain ⟨pre, post, split, position, -, after⟩ := h.split_at layers (all.mem_iff.mpr mem)
  have later : (v :: post).countP (fun u => level u < level v) = 0 := by
    refine List.countP_eq_zero.mpr fun u hu => ?_
    rw [decide_eq_true_eq, Nat.not_lt]
    obtain rfl | hu := List.mem_cons.mp hu
    · exact Nat.le_refl _
    · exact after u hu
  rw [position, ← all.countP_eq, split, List.countP_append, later]
  exact List.countP_le_length

/-- Only nodes on this layer and lower ones come before. -/
theorem idxOf_lt_countP (h : Ordered preds nodes order) (all : order.Perm nodes)
    (layers : Layers preds nodes level) (mem : v ∈ nodes) :
    order.idxOf v < nodes.countP (fun u => level u ≤ level v) := by
  obtain ⟨pre, post, split, position, before, -⟩ := h.split_at layers (all.mem_iff.mpr mem)
  have earlier : pre.countP (fun u => level u ≤ level v) = pre.length :=
    List.countP_eq_length.mpr fun u hu => decide_eq_true (before u hu)
  rw [position, ← all.countP_eq, split, List.countP_append, earlier,
    List.countP_cons_of_pos (by simp)]
  omega

end Ordered

end LayeredKahn
