import Mathlib.Data.List.Basic
import Mathlib.Data.List.Count
import Mathlib.Data.List.Nodup
import Mathlib.Data.List.Range
import Mathlib.Data.Finset.Card
import Mathlib.Logic.Function.Basic

/-!
# Kahn's algorithm

Nodes are the numbers below `n`, and `adj u` lists the successors of `u`. The
algorithm keeps the number of unprocessed predecessors of each node, and a queue of
the nodes for which that number is zero.

`idxOf_lt_idxOf` is the result that callers need: if the order contains all nodes,
it lists every node after its predecessors.
-/

namespace Kahn

/-- The state of the loop. -/
structure State where
  inDegree : Nat → Nat
  queue : List Nat
  order : List Nat

/-- The predecessors of `v` that have not been processed. -/
def pending (n : Nat) (adj : Nat → List Nat) (order : List Nat) (v : Nat) : Nat :=
  (List.range n).countP fun u => v ∈ adj u ∧ u ∉ order

/-- All nodes without a predecessor are queued. -/
def start (n : Nat) (adj : Nat → List Nat) : State where
  inDegree := pending n adj []
  queue := (List.range n).filter fun v => pending n adj [] v = 0
  order := []

/-- One predecessor of `v` has been processed. -/
def relax (s : State) (v : Nat) : State :=
  let degree := s.inDegree v - 1
  { s with
    inDegree := Function.update s.inDegree v degree
    queue := if degree = 0 then s.queue ++ [v] else s.queue }

/-- Process the queue, for at most `fuel` nodes. -/
def run (adj : Nat → List Nat) : (fuel : Nat) → State → State
  | 0, s => s
  | fuel + 1, s =>
    match s.queue with
    | [] => s
    | u :: rest =>
      run adj fuel ((adj u).foldl relax { s with queue := rest, order := s.order ++ [u] })

/-- The order in which the nodes are processed; no node is processed twice, so `n`
rounds are enough. -/
def topoOrder (n : Nat) (adj : Nat → List Nat) : List Nat := (run adj n (start n adj)).order

section Correctness

variable {n : Nat} {adj : Nat → List Nat} {s : State} {rest : List Nat} {u v : Nat}

/-- The invariant of the loop while the successors in `rest` of the last processed
node have not been relaxed. -/
structure Inv (n : Nat) (adj : Nat → List Nat) (rest : List Nat) (s : State) : Prop where
  nodup : (s.order ++ s.queue).Nodup
  bound : ∀ v ∈ s.order ++ s.queue, v < n
  degree : ∀ v, s.inDegree v = pending n adj s.order v + if v ∈ rest then 1 else 0
  ready : ∀ v ∈ s.order ++ s.queue, pending n adj s.order v = 0 ∧ v ∉ rest
  sorted : ∀ pre v post, s.order = pre ++ v :: post → ∀ u < n, v ∈ adj u → u ∈ pre

theorem inv_start : Inv n adj [] (start n adj) where
  nodup := List.nodup_range.filter _
  bound := by
    intro v hv
    exact List.mem_range.mp (List.mem_filter.mp hv).1
  degree := by
    intro v
    simp [start]
  ready := by
    intro v hv
    have zero : pending n adj [] v = 0 := by simpa using (List.mem_filter.mp hv).2
    exact ⟨zero, List.not_mem_nil⟩
  sorted := by
    intro pre v post h
    simp [start] at h

theorem mem_of_pending_eq_zero {order : List Nat} (h : pending n adj order v = 0) (lt : u < n)
    (edge : v ∈ adj u) : u ∈ order := by
  have none := List.countP_eq_zero.mp h u (List.mem_range.mpr lt)
  by_contra missing
  simp [edge, missing] at none

theorem Inv.relax (h : Inv n adj (v :: rest) s) (fresh : v ∉ rest) (lt : v < n) :
    Inv n adj rest (Kahn.relax s v) := by
  have here : s.inDegree v = pending n adj s.order v + 1 := by
    rw [h.degree v, if_pos List.mem_cons_self]
  have unseen : v ∉ s.order ++ s.queue := fun hv => (h.ready v hv).2 List.mem_cons_self
  have later (w : Nat) (hw : w ∈ s.order ++ s.queue) : w ∉ rest :=
    fun hw' => (h.ready w hw).2 (List.mem_cons_of_mem v hw')
  have degree : s.inDegree v - 1 = pending n adj s.order v := by omega
  have queue (w : Nat) (hw : w ∈ s.order ++ (Kahn.relax s v).queue) :
      w ∈ s.order ++ s.queue ∨ (w = v ∧ pending n adj s.order v = 0) := by
    simp only [Kahn.relax, degree] at hw
    split at hw
    · rename_i zero
      rw [← List.append_assoc, List.mem_append, List.mem_singleton] at hw
      exact hw.imp_right fun same => ⟨same, zero⟩
    · exact .inl hw
  refine ⟨?_, ?_, ?_, ?_, h.sorted⟩
  · simp only [Kahn.relax]
    split
    · rw [← List.append_assoc]
      exact h.nodup.append (List.nodup_singleton v)
        (List.disjoint_singleton.mpr unseen)
    · exact h.nodup
  · intro w hw
    cases queue w hw with
    | inl old => exact h.bound w old
    | inr new => exact new.1 ▸ lt
  · intro w
    by_cases same : w = v
    · subst same
      simp [Kahn.relax, degree, fresh]
    · simp [Kahn.relax, same, h.degree w]
  · intro w hw
    cases queue w hw with
    | inl old => exact ⟨(h.ready w old).1, later w old⟩
    | inr new =>
      obtain ⟨rfl, zero⟩ := new
      exact ⟨zero, fresh⟩

theorem Inv.foldl_relax (h : Inv n adj rest s) (nodup : rest.Nodup) (lt : ∀ v ∈ rest, v < n) :
    Inv n adj [] (rest.foldl Kahn.relax s) := by
  induction rest generalizing s with
  | nil => exact h
  | cons v rest ih =>
    obtain ⟨fresh, nodup⟩ := List.nodup_cons.mp nodup
    exact ih (h.relax fresh (lt v List.mem_cons_self)) nodup
      fun w hw => lt w (List.mem_cons_of_mem v hw)

/-- Processing `u` settles one pending predecessor of each of its successors. -/
theorem pending_append {order : List Nat} (lt : u < n) (fresh : u ∉ order) :
    pending n adj order v =
      pending n adj (order ++ [u]) v + if v ∈ adj u then 1 else 0 := by
  have split (l : List Nat) (nodup : l.Nodup) :
      l.countP (fun w => v ∈ adj w ∧ w ∉ order) =
        l.countP (fun w => v ∈ adj w ∧ w ∉ order ++ [u]) +
          if u ∈ l ∧ v ∈ adj u then 1 else 0 := by
    induction l with
    | nil => simp
    | cons w l ih =>
      obtain ⟨notIn, nodup⟩ := List.nodup_cons.mp nodup
      rw [List.countP_cons, List.countP_cons, ih nodup]
      by_cases same : w = u
      · subst same
        by_cases edge : v ∈ adj w <;> simp [edge, fresh, notIn]
      · have alike : (w ∉ order ++ [u]) = (w ∉ order) := by simp [same]
        have other : (u ∈ w :: l) = (u ∈ l) := by simp [Ne.symm same]
        simp only [alike, other]
        omega
  have all := split (List.range n) List.nodup_range
  simpa [pending, lt] using all

theorem Inv.pop (h : Inv n adj [] s) (queue : s.queue = u :: rest) :
    Inv n adj (adj u) { s with queue := rest, order := s.order ++ [u] } := by
  have same : s.order ++ [u] ++ rest = s.order ++ s.queue := by simp [queue]
  have hu : u ∈ s.order ++ s.queue := by simp [queue]
  have lt : u < n := h.bound u hu
  have fresh : u ∉ s.order := by
    intro old
    have nodup := h.nodup
    rw [queue] at nodup
    exact List.disjoint_of_nodup_append nodup old List.mem_cons_self
  refine ⟨?_, ?_, ?_, ?_, ?_⟩
  · change (s.order ++ [u] ++ rest).Nodup
    rw [same]
    exact h.nodup
  · intro v hv
    exact h.bound v (same ▸ hv)
  · intro v
    have old := h.degree v
    rw [if_neg List.not_mem_nil, Nat.add_zero, pending_append lt fresh] at old
    exact old
  · intro v hv
    have zero := (h.ready v (same ▸ hv)).1
    rw [pending_append lt fresh] at zero
    constructor
    · change pending n adj (s.order ++ [u]) v = 0
      omega
    · intro edge
      rw [if_pos edge] at zero
      omega
  · intro pre v post parts w hw edge
    have parts : s.order ++ [u] = pre ++ v :: post := parts
    cases List.eq_nil_or_concat post with
    | inl last =>
      subst last
      obtain ⟨rfl, tail⟩ := List.append_inj' parts rfl
      cases tail
      exact mem_of_pending_eq_zero (h.ready u hu).1 hw edge
    | inr more =>
      obtain ⟨post', z, rfl⟩ := more
      have parts' : s.order ++ [u] = (pre ++ v :: post') ++ [z] := by simpa using parts
      exact h.sorted pre v post' (List.append_inj' parts' rfl).1 w hw edge

/-- The invariant holds after any number of rounds. -/
theorem Inv.run (nodup : ∀ u, (adj u).Nodup) (lt : ∀ u v, v ∈ adj u → v < n) {fuel : Nat}
    (h : Inv n adj [] s) : Inv n adj [] (Kahn.run adj fuel s) := by
  induction fuel generalizing s with
  | zero => exact h
  | succ fuel ih =>
    unfold Kahn.run
    split
    · exact h
    · rename_i u rest queue
      exact ih ((h.pop queue).foldl_relax (nodup u) (lt u))

/-- Every node without pending predecessors has been queued. -/
def Queued (n : Nat) (adj : Nat → List Nat) (rest : List Nat) (s : State) : Prop :=
  ∀ v < n, pending n adj s.order v = 0 → v ∉ rest → v ∈ s.order ++ s.queue

theorem queued_start : Queued n adj [] (start n adj) := by
  intro v lt zero _
  have free : pending n adj [] v = 0 := zero
  exact List.mem_filter.mpr ⟨List.mem_range.mpr lt, by simpa using free⟩

theorem Queued.relax (h : Queued n adj (v :: rest) s) (inv : Inv n adj (v :: rest) s) :
    Queued n adj rest (Kahn.relax s v) := by
  intro w lt zero fresh
  by_cases same : w = v
  · subst same
    have degree : s.inDegree w - 1 = 0 := by
      rw [inv.degree w, if_pos List.mem_cons_self]
      have : pending n adj s.order w = 0 := zero
      omega
    simp [Kahn.relax, degree]
  · have old := h w lt zero (by simp [same, fresh])
    rw [Kahn.relax]
    dsimp only
    split
    · rw [← List.append_assoc]
      exact List.mem_append_left _ old
    · exact old

theorem Queued.foldl_relax (h : Queued n adj rest s) (inv : Inv n adj rest s) (nodup : rest.Nodup)
    (lt : ∀ v ∈ rest, v < n) : Queued n adj [] (rest.foldl Kahn.relax s) := by
  induction rest generalizing s with
  | nil => exact h
  | cons v rest ih =>
    obtain ⟨fresh, nodup⟩ := List.nodup_cons.mp nodup
    exact ih (h.relax inv) (inv.relax fresh (lt v List.mem_cons_self)) nodup
      fun w hw => lt w (List.mem_cons_of_mem v hw)

theorem Queued.pop (h : Queued n adj [] s) (inv : Inv n adj [] s) (queue : s.queue = u :: rest) :
    Queued n adj (adj u) { s with queue := rest, order := s.order ++ [u] } := by
  intro v lt zero fresh
  have hu : u ∈ s.order ++ s.queue := by simp [queue]
  have unprocessed : u ∉ s.order := by
    intro old
    have nodup := inv.nodup
    rw [queue] at nodup
    exact List.disjoint_of_nodup_append nodup old List.mem_cons_self
  have before : pending n adj s.order v = 0 := by
    rw [pending_append (inv.bound u hu) unprocessed, if_neg fresh, Nat.add_zero]
    exact zero
  have old := h v lt before List.not_mem_nil
  rw [queue] at old
  simpa using old

theorem order_foldl_relax (l : List Nat) (s : State) : (l.foldl relax s).order = s.order := by
  induction l generalizing s with
  | nil => rfl
  | cons v l ih => exact ih (relax s v)

/-- The loop ends with an empty queue, or after as many nodes as it was allowed. -/
theorem run_ends (fuel : Nat) (nodup : ∀ u, (adj u).Nodup) (lt : ∀ u v, v ∈ adj u → v < n)
    (h : Queued n adj [] s) (inv : Inv n adj [] s) :
    Queued n adj [] (run adj fuel s) ∧ ((run adj fuel s).queue = [] ∨
      (run adj fuel s).order.length = s.order.length + fuel) := by
  induction fuel generalizing s with
  | zero => exact ⟨h, .inr rfl⟩
  | succ fuel ih =>
    unfold Kahn.run
    split
    · rename_i queue
      exact ⟨h, .inl queue⟩
    · rename_i u rest queue
      have popped := inv.pop queue
      obtain ⟨queued, ends⟩ := ih ((h.pop inv queue).foldl_relax popped (nodup u) (lt u))
        (popped.foldl_relax (nodup u) (lt u))
      refine ⟨queued, ends.imp_right fun length => ?_⟩
      rw [length, order_foldl_relax]
      simp only [List.length_append, List.length_singleton]
      omega

/-- The order of an acyclic graph contains all nodes. -/
theorem length_topoOrder (nodup : ∀ u, (adj u).Nodup) (lt : ∀ u v, v ∈ adj u → v < n)
    (rank : Nat → Nat) (acyclic : ∀ u v, v ∈ adj u → rank u < rank v) :
    (topoOrder n adj).length = n := by
  have inv : Inv n adj [] (run adj n (start n adj)) := inv_start.run nodup lt
  obtain ⟨queued, ends⟩ := run_ends n nodup lt queued_start inv_start
  have unique : (topoOrder n adj).Nodup := (List.nodup_append.mp inv.nodup).1
  obtain empty | length := ends
  · have all (v : Nat) (hv : v < n) : v ∈ topoOrder n adj := by
      induction rank_v : rank v using Nat.strong_induction_on generalizing v with
      | _ k ih =>
        have zero : pending n adj (topoOrder n adj) v = 0 := by
          refine List.countP_eq_zero.mpr fun u hu => ?_
          rw [decide_eq_true_iff]
          rintro ⟨edge, missing⟩
          exact missing (ih (rank u) (rank_v ▸ acyclic u v edge) u (List.mem_range.mp hu) rfl)
        have here := queued v hv zero List.not_mem_nil
        rwa [empty, List.append_nil] at here
    have same : (topoOrder n adj).toFinset = Finset.range n := by
      ext v
      rw [List.mem_toFinset, Finset.mem_range]
      exact ⟨fun hv => inv.bound v (List.mem_append_left _ hv), all v⟩
    rw [← List.toFinset_card_of_nodup unique, same, Finset.card_range]
  · exact length.trans (Nat.zero_add n)

/-- An order of all nodes lists every node after its predecessors. -/
theorem idxOf_lt_idxOf (nodup : ∀ u, (adj u).Nodup) (lt : ∀ u v, v ∈ adj u → v < n)
    (complete : (topoOrder n adj).length = n) (hu : u < n) (edge : v ∈ adj u) :
    (topoOrder n adj).idxOf u < (topoOrder n adj).idxOf v := by
  have inv : Inv n adj [] (run adj n (start n adj)) := inv_start.run nodup lt
  have unique : (topoOrder n adj).Nodup := (List.nodup_append.mp inv.nodup).1
  have all : ∀ w < n, w ∈ topoOrder n adj := by
    have subset : (topoOrder n adj).toFinset ⊆ Finset.range n := by
      intro w hw
      rw [Finset.mem_range]
      exact inv.bound w (List.mem_append.mpr (.inl (List.mem_toFinset.mp hw)))
    have card : (topoOrder n adj).toFinset.card = n := by
      rw [List.toFinset_card_of_nodup unique, complete]
    have same : (topoOrder n adj).toFinset = Finset.range n :=
      Finset.eq_of_subset_of_card_le subset (by rw [card, Finset.card_range])
    intro w hw
    rw [← List.mem_toFinset, same, Finset.mem_range]
    exact hw
  obtain ⟨pre, post, parts⟩ := List.append_of_mem (all v (lt u v edge))
  have before : u ∈ pre := inv.sorted pre v post parts u hu edge
  have notBefore : v ∉ pre := by
    intro hv
    rw [parts] at unique
    exact List.disjoint_of_nodup_append unique hv List.mem_cons_self
  rw [parts, List.idxOf_append_of_mem before, List.idxOf_append_of_notMem notBefore,
    List.idxOf_cons_self]
  exact Nat.lt_of_lt_of_le (List.idxOf_lt_length_iff.mpr before) (Nat.le_add_right _ _)

theorem order_prefix_run (adj : Nat → List Nat) (fuel : Nat) (s : State) :
    s.order <+: (run adj fuel s).order := by
  induction fuel generalizing s with
  | zero => exact List.prefix_rfl
  | succ fuel ih =>
    unfold run
    split
    · exact List.prefix_rfl
    · refine List.IsPrefix.trans ?_ (ih _)
      rw [order_foldl_relax]
      exact List.prefix_append _ _

/-- If no edge leads to the node `0`, it is the first. -/
theorem exists_topoOrder_eq (pos : 0 < n) (source : ∀ u, 0 ∉ adj u) :
    ∃ rest, topoOrder n adj = 0 :: rest := by
  obtain ⟨m, rfl⟩ := Nat.exists_eq_succ_of_ne_zero pos.ne'
  have zero : pending (m + 1) adj [] 0 = 0 :=
    List.countP_eq_zero.mpr fun u _ => by simp [source u]
  have queue : ∃ rest, (start (m + 1) adj).queue = 0 :: rest := by
    rw [start, List.range_succ_eq_map, List.filter_cons_of_pos (by simpa using zero)]
    exact ⟨_, rfl⟩
  obtain ⟨rest, queue⟩ := queue
  obtain ⟨later, first⟩ := order_prefix_run adj m
    ((adj 0).foldl relax { start (m + 1) adj with queue := rest, order := [0] })
  rw [order_foldl_relax] at first
  refine ⟨later, ?_⟩
  rw [topoOrder, run, queue]
  exact first.symm

end Correctness

-- Some programs sort the nodes that become ready together before they queue them. The
-- invariant does not see the order of the queue.

section Arranged

variable {n : Nat} {adj : Nat → List Nat} {arrange : List Nat → List Nat} {s : State}
  {rest q : List Nat} {u v : Nat}

/-- All nodes without a predecessor, rearranged. -/
def startBy (arrange : List Nat → List Nat) (n : Nat) (adj : Nat → List Nat) : State :=
  { start n adj with queue := arrange (start n adj).queue }

/-- Process the queue; the nodes that become ready in one round are rearranged. -/
def runBy (arrange : List Nat → List Nat) (adj : Nat → List Nat) : (fuel : Nat) → State → State
  | 0, s => s
  | fuel + 1, s =>
    match s.queue with
    | [] => s
    | u :: rest =>
      let next := (adj u).foldl relax { s with queue := [], order := s.order ++ [u] }
      runBy arrange adj fuel { next with queue := rest ++ arrange next.queue }

theorem foldl_relax_queue (l : List Nat) (s : State) (q : List Nat) :
    l.foldl relax { s with queue := q ++ s.queue } =
      { l.foldl relax s with queue := q ++ (l.foldl relax s).queue } := by
  induction l generalizing s with
  | nil => rfl
  | cons v l ih =>
    have one : relax { s with queue := q ++ s.queue } v =
        { relax s v with queue := q ++ (relax s v).queue } := by
      simp only [relax]
      split
      · rw [List.append_assoc]
      · rfl
    rw [List.foldl_cons, List.foldl_cons, one]
    exact ih (relax s v)

theorem Inv.perm (h : Inv n adj rest s) (same : q.Perm s.queue) :
    Inv n adj rest { s with queue := q } where
  nodup := ((same.append_left s.order).nodup_iff).mpr h.nodup
  bound := fun v hv => h.bound v ((same.append_left s.order).subset hv)
  degree := h.degree
  ready := fun v hv => h.ready v ((same.append_left s.order).subset hv)
  sorted := h.sorted

/-- One round, with what becomes ready rearranged. -/
theorem Inv.popBy (perm : ∀ l, (arrange l).Perm l) (nodup : (adj u).Nodup)
    (lt : ∀ v ∈ adj u, v < n) (h : Inv n adj [] s) (queue : s.queue = u :: rest) :
    Inv n adj []
      { (adj u).foldl Kahn.relax { s with queue := [], order := s.order ++ [u] } with
        queue := rest ++ arrange
          ((adj u).foldl Kahn.relax { s with queue := [], order := s.order ++ [u] }).queue } := by
  have relaxed := (h.pop queue).foldl_relax nodup lt
  have split := foldl_relax_queue (adj u) { s with queue := [], order := s.order ++ [u] } rest
  rw [List.append_nil] at split
  rw [split] at relaxed
  exact relaxed.perm ((perm _).append_left rest)

theorem Inv.runBy (perm : ∀ l, (arrange l).Perm l) (nodup : ∀ u, (adj u).Nodup)
    (lt : ∀ u v, v ∈ adj u → v < n) {fuel : Nat} (h : Inv n adj [] s) :
    Inv n adj [] (Kahn.runBy arrange adj fuel s) := by
  induction fuel generalizing s with
  | zero => exact h
  | succ fuel ih =>
    unfold Kahn.runBy
    split
    · exact h
    · rename_i u rest queue
      exact ih (h.popBy perm (nodup u) (lt u) queue)

theorem inv_startBy (perm : ∀ l, (arrange l).Perm l) : Inv n adj [] (startBy arrange n adj) :=
  inv_start.perm (perm _)

/-- No node is listed before one of its predecessors. -/
theorem Inv.pairwise (h : Inv n adj [] s) : s.order.Pairwise fun u v => u ∉ adj v := by
  have nodup := (List.nodup_append.mp h.nodup).1
  have later (l pre : List Nat) (parts : s.order = pre ++ l) : l.Pairwise fun u v => u ∉ adj v := by
    induction l generalizing pre with
    | nil => exact .nil
    | cons u l ih =>
      refine .cons ?_ (ih (pre ++ [u]) (by rw [parts, List.append_assoc]; rfl))
      intro v hv edge
      have member : v ∈ s.order := parts ▸ List.mem_append_right pre (List.mem_cons_of_mem u hv)
      have early : v ∈ pre :=
        h.sorted pre u l parts v (h.bound v (List.mem_append_left _ member)) edge
      rw [parts] at nodup
      exact List.disjoint_of_nodup_append nodup early (List.mem_cons_of_mem u hv)
  exact later s.order [] rfl

/-- An order of `n` nodes lists all of them. -/
theorem Inv.perm_range (h : Inv n adj [] s) (complete : n ≤ s.order.length) :
    s.order.Perm (List.range n) := by
  apply (List.subperm_of_subset (List.nodup_append.mp h.nodup).1 ?_).perm_of_length_le
  · rwa [List.length_range]
  · intro v hv
    exact List.mem_range.mpr (h.bound v (List.mem_append_left _ hv))

end Arranged

end Kahn
