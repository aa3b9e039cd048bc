import Mathlib.Algebra.Order.BigOperators.Group.Finset
import Mathlib.Data.Set.Card
import Mathlib.Logic.Relation

/-!
# Sizes of connected components

A depth-first search counts the nodes of one component after the other and stops at the
first component that exceeds a limit. The graph is given by the neighbours of each node,
the starting points by a list, in any order.

`exists_largest` is the result that callers need: with enough fuel the search answers, and
its answer exceeds the limit just if some component does.
-/

namespace ComponentSize

variable {α : Type*} [DecidableEq α]

/-- Count the nodes that are reachable from the stack and have not been visited. The search is
left as soon as there are more than `limit`. -/
def explore (adj : α → List α) (limit : Nat) :
    (fuel : Nat) → (visited stack : List α) → (size : Nat) → Option (List α × Nat)
  | 0, _, _, _ => none
  | _ + 1, visited, [], size => some (visited, size)
  | fuel + 1, visited, node :: stack, size =>
    if node ∈ visited then explore adj limit fuel visited stack size
    else if limit < size + 1 then some (node :: visited, size + 1)
    else
      let fresh := (adj node).filter fun y => y ∉ node :: visited
      explore adj limit fuel (node :: visited) (fresh.reverse ++ stack) (size + 1)

/-- The size of the largest component, or of the first one found above the limit. -/
def largest (adj : α → List α) (limit fuel : Nat) :
    (starts visited : List α) → (maxSeen : Nat) → Option Nat
  | [], _, maxSeen => some maxSeen
  | start :: starts, visited, maxSeen =>
    if start ∈ visited then largest adj limit fuel starts visited maxSeen
    else
      (explore adj limit fuel visited [start] 0).bind fun (visited, size) =>
        if limit < max maxSeen size then some (max maxSeen size)
        else largest adj limit fuel starts visited (max maxSeen size)

/-- Everything reachable from a node, with the node itself. -/
def component (adj : α → List α) (x : α) : Set α :=
  { y | Relation.ReflTransGen (fun a b => b ∈ adj a) x y }

variable {adj : α → List α} {limit fuel size : Nat} {U : Finset α} {s x y : α}
  {seen visited stack starts : List α}

section Component

omit [DecidableEq α]

theorem mem_component_self : x ∈ component adj x := .refl

theorem mem_component_of_adj (h : x ∈ component adj s) (edge : y ∈ adj x) :
    y ∈ component adj s :=
  Relation.ReflTransGen.tail h edge

theorem mem_component_comm (symm : ∀ x y, y ∈ adj x → x ∈ adj y) (h : y ∈ component adj x) :
    x ∈ component adj y := by
  induction h with
  | refl => exact .refl
  | tail _ edge ih => exact Relation.ReflTransGen.head (symm _ _ edge) ih

theorem mem_component_trans {z : α} (h : y ∈ component adj x) (h' : z ∈ component adj y) :
    z ∈ component adj x :=
  Relation.ReflTransGen.trans h h'

theorem component_eq (symm : ∀ x y, y ∈ adj x → x ∈ adj y) (h : y ∈ component adj x) :
    component adj y = component adj x := by
  ext z
  constructor
  · exact mem_component_trans h
  · exact mem_component_trans (mem_component_comm symm h)

/-- A component stays inside a set that contains the neighbours of all nodes. -/
theorem component_subset (inside : ∀ x, ∀ y ∈ adj x, y ∈ U) (hs : s ∈ U) :
    component adj s ⊆ U := by
  intro y hy
  induction hy with
  | refl => exact hs
  | tail _ edge _ => exact inside _ _ edge

end Component

/-- The pushes that are still to come. -/
def remaining (adj : α → List α) (U : Finset α) (visited : List α) : Nat :=
  ∑ u ∈ U \ visited.toFinset, (adj u).length

theorem remaining_cons (hx : x ∈ U) (fresh : x ∉ visited) :
    (adj x).length + remaining adj U (x :: visited) = remaining adj U visited := by
  have member : x ∈ U \ visited.toFinset := by
    rw [Finset.mem_sdiff, List.mem_toFinset]
    exact ⟨hx, fresh⟩
  rw [remaining, remaining, List.toFinset_cons, Finset.sdiff_insert]
  exact Finset.add_sum_erase _ (fun u => (adj u).length) member

theorem remaining_le : remaining adj U visited ≤ remaining adj U [] := by
  apply Finset.sum_le_sum_of_subset
  rw [List.toFinset_nil, Finset.sdiff_empty]
  exact Finset.sdiff_subset

/-- The search from `s`, in which `found` has been visited beyond what was seen before. -/
structure Exploring (adj : α → List α) (s : α) (seen found stack : List α) : Prop where
  nodup : found.Nodup
  reached : ∀ x ∈ found ++ stack, x ∈ component adj s
  closed : ∀ x ∈ found, ∀ y ∈ adj x, y ∈ found ++ seen ++ stack
  started : s ∈ found ++ stack

namespace Exploring

variable {found : List α}

omit [DecidableEq α] in
theorem start : Exploring adj s seen [] [s] where
  nodup := List.nodup_nil
  reached := by
    intro x hx
    cases List.mem_singleton.mp hx
    exact mem_component_self
  closed := nofun
  started := List.mem_singleton_self s

omit [DecidableEq α] in
/-- A node that was visited before is dropped. -/
theorem skip (h : Exploring adj s seen found (x :: stack)) (hx : x ∈ found ++ seen)
    (apart : ∀ y ∈ seen, y ∉ component adj s) : Exploring adj s seen found stack where
  nodup := h.nodup
  reached := by
    intro y hy
    apply h.reached
    rw [List.mem_append] at hy ⊢
    exact hy.imp_right (List.mem_cons_of_mem x)
  closed := by
    intro y hy z edge
    have old := h.closed y hy z edge
    rw [List.mem_append, List.mem_cons] at old
    rw [List.mem_append]
    obtain old | rfl | later := old
    · exact .inl old
    · exact .inl hx
    · exact .inr later
  started := by
    have here : x ∈ component adj s := h.reached x (List.mem_append_right _ List.mem_cons_self)
    have own : x ∈ found := (List.mem_append.mp hx).resolve_right fun old => apart x old here
    have old := h.started
    rw [List.mem_append, List.mem_cons] at old
    rw [List.mem_append]
    obtain old | rfl | later := old
    · exact .inl old
    · exact .inl own
    · exact .inr later

/-- A new node is counted, and its new neighbours are pushed. -/
theorem visit (h : Exploring adj s seen found (x :: stack)) (fresh : x ∉ found ++ seen) :
    Exploring adj s seen (x :: found)
      (((adj x).filter fun y => y ∉ x :: (found ++ seen)).reverse ++ stack) where
  nodup := by
    refine List.nodup_cons.mpr ⟨?_, h.nodup⟩
    exact fun old => fresh (List.mem_append_left seen old)
  reached := by
    have here : x ∈ component adj s := h.reached x (List.mem_append_right _ List.mem_cons_self)
    intro y hy
    rw [List.mem_append, List.mem_cons, List.mem_append, List.mem_reverse, List.mem_filter] at hy
    obtain (rfl | old) | new | old := hy
    · exact here
    · exact h.reached y (List.mem_append_left _ old)
    · exact mem_component_of_adj here new.1
    · exact h.reached y (List.mem_append_right _ (List.mem_cons_of_mem x old))
  closed := by
    intro y hy z edge
    rw [List.cons_append, List.mem_append, List.mem_append]
    obtain rfl | old := List.mem_cons.mp hy
    · by_cases known : z ∈ y :: (found ++ seen)
      · exact .inl known
      · refine .inr (.inl ?_)
        rw [List.mem_reverse, List.mem_filter]
        exact ⟨edge, decide_eq_true known⟩
    · have before := h.closed y old z edge
      rw [List.mem_append, List.mem_cons] at before
      obtain before | rfl | later := before
      · exact .inl (List.mem_cons_of_mem x before)
      · exact .inl List.mem_cons_self
      · exact .inr (.inr later)
  started := by
    have old := h.started
    rw [List.mem_append, List.mem_cons] at old
    rw [List.mem_append, List.mem_cons, List.mem_append]
    obtain old | rfl | later := old
    · exact .inl (.inr old)
    · exact .inl (.inl rfl)
    · exact .inr (.inr later)

omit [DecidableEq α] in
/-- With an empty stack the component has been found. -/
theorem mem_found_iff (h : Exploring adj s seen found [])
    (apart : ∀ y ∈ seen, y ∉ component adj s) : y ∈ found ↔ y ∈ component adj s := by
  have whole := h.started
  rw [List.append_nil] at whole
  constructor
  · intro hy
    apply h.reached
    exact List.mem_append_left _ hy
  · intro path
    induction path with
    | refl => exact whole
    | tail path edge ih =>
      have next := h.closed _ ih _ edge
      rw [List.append_nil, List.mem_append] at next
      exact next.resolve_right fun old => apart _ old (mem_component_of_adj path edge)

theorem length_le (h : Exploring adj s seen found stack) (finite : (component adj s).Finite) :
    found.length ≤ (component adj s).ncard := by
  have sub : (found.toFinset : Set α) ⊆ component adj s := by
    intro y hy
    rw [List.coe_toFinset] at hy
    exact h.reached y (List.mem_append_left _ hy)
  have le := Set.ncard_le_ncard sub finite
  rwa [Set.ncard_coe_finset, List.toFinset_card_of_nodup h.nodup] at le

theorem length_eq (h : Exploring adj s seen found [])
    (apart : ∀ y ∈ seen, y ∉ component adj s) :
    found.length = (component adj s).ncard := by
  have same : component adj s = (found.toFinset : Set α) := by
    ext y
    rw [List.coe_toFinset]
    exact (h.mem_found_iff apart).symm
  rw [same, Set.ncard_coe_finset, List.toFinset_card_of_nodup h.nodup]

end Exploring

/-- What the search from `s` answers: the component, or more than `limit` of its nodes. -/
structure Explored (adj : α → List α) (limit : Nat) (s : α) (seen visited : List α) (size : Nat) :
    Prop where
  le : size ≤ (component adj s).ncard
  whole : size ≤ limit → size = (component adj s).ncard ∧
    ∀ y, y ∈ visited ↔ y ∈ component adj s ∨ y ∈ seen

/-- Every node is pushed at most once for each of its neighbours, so the search ends. -/
theorem exists_explore {found : List α} (inside : ∀ x, ∀ y ∈ adj x, y ∈ U) (hs : s ∈ U)
    (apart : ∀ y ∈ seen, y ∉ component adj s) (h : Exploring adj s seen found stack)
    (enough : stack.length + remaining adj U (found ++ seen) < fuel) :
    ∃ visited size, explore adj limit fuel (found ++ seen) stack found.length =
      some (visited, size) ∧ Explored adj limit s seen visited size := by
  have finite : (component adj s).Finite := U.finite_toSet.subset (component_subset inside hs)
  induction fuel generalizing found stack with
  | zero => cases enough
  | succ fuel ih =>
    cases stack with
    | nil =>
      refine ⟨found ++ seen, found.length, rfl, h.length_le finite, ?_⟩
      intro _
      refine ⟨h.length_eq apart, ?_⟩
      intro y
      rw [List.mem_append, h.mem_found_iff apart]
    | cons x stack =>
      rw [List.length_cons] at enough
      by_cases old : x ∈ found ++ seen
      · rw [explore, if_pos old]
        exact ih (h.skip old apart) (by omega)
      · have next := h.visit old
        have hx : x ∈ U :=
          component_subset inside hs (h.reached x (List.mem_append_right _ List.mem_cons_self))
        have used : (adj x).length + remaining adj U (x :: (found ++ seen)) =
            remaining adj U (found ++ seen) := remaining_cons hx old
        have pushed := List.length_filter_le (fun y => decide (y ∉ x :: (found ++ seen))) (adj x)
        rw [explore, if_neg old]
        split
        · rename_i exceeds
          refine ⟨_, _, rfl, next.length_le finite, ?_⟩
          intro le
          omega
        · apply ih next
          rw [List.length_append, List.length_reverse, List.cons_append]
          omega

/-- Some component of the starting points exceeds the limit just if the answer does. -/
theorem exists_largest {maxSeen : Nat} (symm : ∀ x y, y ∈ adj x → x ∈ adj y)
    (inside : ∀ x, ∀ y ∈ adj x, y ∈ U) (started : ∀ x ∈ starts, x ∈ U)
    (closed : ∀ x ∈ visited, component adj x ⊆ { y | y ∈ visited })
    (small : ∀ x ∈ visited, (component adj x).ncard ≤ limit) (seen : maxSeen ≤ limit)
    (enough : 1 + remaining adj U [] < fuel) :
    ∃ m, largest adj limit fuel starts visited maxSeen = some m ∧
      (limit < m ↔ ∃ x ∈ starts, limit < (component adj x).ncard) := by
  induction starts generalizing visited maxSeen with
  | nil =>
    refine ⟨maxSeen, rfl, ?_⟩
    constructor
    · intro exceeds
      omega
    · rintro ⟨x, hx, -⟩
      cases hx
  | cons x starts ih =>
    have hx : x ∈ U := started x List.mem_cons_self
    have started' : ∀ y ∈ starts, y ∈ U := fun y hy => started y (List.mem_cons_of_mem x hy)
    have split (fits : (component adj x).ncard ≤ limit) :
        (∃ y ∈ x :: starts, limit < (component adj y).ncard) ↔
          ∃ y ∈ starts, limit < (component adj y).ncard := by
      rw [List.exists_mem_cons_iff]
      exact or_iff_right (Nat.not_lt.mpr fits)
    by_cases old : x ∈ visited
    · rw [largest, if_pos old, split (small x old)]
      exact ih started' closed small seen
    · have apart : ∀ y ∈ visited, y ∉ component adj x := by
        intro y hy path
        exact old (closed y hy (mem_component_comm symm path))
      have room : [x].length + remaining adj U ([] ++ visited) < fuel := by
        have le : remaining adj U visited ≤ remaining adj U [] := remaining_le
        rw [List.length_singleton, List.nil_append]
        omega
      obtain ⟨visited', size, answer, explored⟩ : ∃ visited' size,
          explore adj limit fuel ([] ++ visited) [x] ([] : List α).length = some (visited', size) ∧
            Explored adj limit x visited visited' size := exists_explore inside hx apart .start room
      rw [List.nil_append, List.length_nil] at answer
      rw [largest, if_neg old, answer, Option.bind_some]
      dsimp only
      split
      · rename_i exceeds
        refine ⟨_, rfl, iff_of_true exceeds ⟨x, List.mem_cons_self, ?_⟩⟩
        have le := explored.le
        omega
      · rename_i fits
        obtain ⟨exact_, mem⟩ := explored.whole (by omega)
        rw [split (by omega)]
        apply ih started'
        · intro y hy z hz
          obtain new | before := (mem y).mp hy
          · exact (mem z).mpr (.inl (mem_component_trans new hz))
          · exact (mem z).mpr (.inr (closed y before hz))
        · intro y hy
          obtain new | before := (mem y).mp hy
          · rw [component_eq symm new]
            omega
          · exact small y before
        · omega

end ComponentSize
