import Mathlib.Data.List.Sort
import Mathlib.Data.List.Dedup
import Mathlib.Algebra.Order.BigOperators.Group.List
import Mathlib.Algebra.Order.Ring.Nat

/-!
# Leapfrog intersection

Two tools for joins over sorted data: an index of the runs of equal keys in a sorted list
of pairs, and the intersection of sorted iterators.

An iterator over a strictly increasing list is given by the values from its position on.
`intersect` finds the values common to all iterators: in each round every iterator seeks
the largest key seen so far, and a value is common if no iterator moves past it.

The loop has fuel. Each round either emits a value or raises the target above the key of
some iterator, so the number of values that are left, once all iterators have sought the
target, goes down; `mem_intersect` says that the fuel given is enough.
-/

namespace Leapfrog

variable {α : Type*} [LinearOrder α]

/-- The values from the first one on that is not below the target. -/
def seek (target : α) (it : List α) : List α := it.dropWhile (· < target)

/-- The largest key of the iterators that are not at their end. -/
def maxKey (iters : List (List α)) : Option α := (iters.filterMap List.head?).max?

/-- The loop, from a target on. -/
def loop : (fuel : Nat) → α → List (List α) → List α
  | 0, _, _ => []
  | fuel + 1, x, iters =>
    let iters := iters.map (seek x)
    if [] ∈ iters then []
    else
      match maxKey iters with
      | none => []
      | some newMax =>
        if newMax = x then
          let iters := iters.map List.tail
          match maxKey iters with
          | none => [x]
          | some next => x :: loop fuel next iters
        else loop fuel newMax iters

/-- The values that all iterators have; none of them if there is no iterator. -/
def intersect (iters : List (List α)) : List α :=
  if [] ∈ iters then []
  else
    match maxKey iters with
    | none => []
    | some x => loop ((iters.map List.length).sum + 1) x iters

section Seek

variable {x y v : α} {it : List α}

theorem seek_suffix (x : α) (it : List α) : seek x it <:+ it := List.dropWhile_suffix _

theorem mem_seek (sorted : it.Pairwise (· < ·)) : v ∈ seek x it ↔ v ∈ it ∧ x ≤ v := by
  induction it with
  | nil => simp [seek]
  | cons a it ih =>
    obtain ⟨least, rest⟩ := List.pairwise_cons.mp sorted
    rw [seek, List.dropWhile_cons]
    by_cases below : a < x
    · rw [if_pos (by simpa using below), ← seek, ih rest, List.mem_cons]
      constructor
      · intro ⟨hv, high⟩
        exact ⟨.inr hv, high⟩
      · rintro ⟨rfl | hv, high⟩
        · exact absurd below (not_lt.mpr high)
        · exact ⟨hv, high⟩
    · rw [if_neg (by simpa using below)]
      refine ⟨fun hv => ⟨hv, ?_⟩, fun h => h.1⟩
      obtain rfl | hv := List.mem_cons.mp hv
      · exact not_lt.mp below
      · exact (not_lt.mp below).trans (least v hv).le

theorem sorted_seek (sorted : it.Pairwise (· < ·)) : (seek x it).Pairwise (· < ·) :=
  sorted.sublist (seek_suffix x it).sublist

theorem seek_of_head (here : it.head? = some x) : seek x it = it := by
  cases it with
  | nil => rfl
  | cons a it =>
    cases here
    rw [seek, List.dropWhile_cons, if_neg (by simp)]

/-- Seeking beyond the key moves the iterator. -/
theorem length_seek_lt (here : it.head? = some x) (above : x < y) :
    (seek y it).length < it.length := by
  cases it with
  | nil => cases here
  | cons a it =>
    cases here
    rw [seek, List.dropWhile_cons, if_pos (by simpa using above), List.length_cons]
    exact Nat.lt_succ_of_le (seek_suffix y it).length_le

theorem head_le (sorted : it.Pairwise (· < ·)) (here : it.head? = some x) (hv : v ∈ it) :
    x ≤ v := by
  cases it with
  | nil => cases here
  | cons a it =>
    cases here
    obtain rfl | hv := List.mem_cons.mp hv
    · exact le_refl _
    · exact ((List.pairwise_cons.mp sorted).1 v hv).le

theorem mem_tail (sorted : it.Pairwise (· < ·)) (here : it.head? = some x) :
    v ∈ it.tail ↔ v ∈ it ∧ x < v := by
  cases it with
  | nil => cases here
  | cons a it =>
    cases here
    have least := (List.pairwise_cons.mp sorted).1
    rw [List.tail_cons, List.mem_cons]
    constructor
    · intro hv
      exact ⟨.inr hv, least v hv⟩
    · rintro ⟨rfl | hv, above⟩
      · exact absurd above (lt_irrefl _)
      · exact hv

end Seek

theorem maxKey_eq_some_iff {iters : List (List α)} {m : α} : maxKey iters = some m ↔
    (∃ it ∈ iters, it.head? = some m) ∧ ∀ it ∈ iters, ∀ k, it.head? = some k → k ≤ m := by
  rw [maxKey, List.max?_eq_some_iff]
  simp only [List.mem_filterMap]
  constructor
  · rintro ⟨here, above⟩
    exact ⟨here, fun it hit k hk => above k ⟨it, hit, hk⟩⟩
  · rintro ⟨here, above⟩
    exact ⟨here, fun k ⟨it, hit, hk⟩ => above it hit k hk⟩

theorem maxKey_eq_none_iff {iters : List (List α)} :
    maxKey iters = none ↔ ∀ it ∈ iters, it = [] := by
  rw [maxKey, List.max?_eq_none_iff, List.filterMap_eq_nil_iff]
  exact forall₂_congr fun it _ => List.head?_eq_none_iff

omit [LinearOrder α] in
/-- A sum of lengths goes down if no list gets longer and one gets shorter. -/
theorem sum_length_lt {iters : List (List α)} {f : List α → List α}
    (le : ∀ it ∈ iters, (f it).length ≤ it.length) (lt : ∃ it ∈ iters, (f it).length < it.length) :
    ((iters.map f).map List.length).sum < (iters.map List.length).sum := by
  rw [List.map_map]
  exact List.sum_lt_sum _ _ le lt

/-- An advance of all iterators leaves less. -/
theorem sum_seek_tail_lt {iters : List (List α)} (next : α) (some' : ∃ it ∈ iters, it ≠ []) :
    (((iters.map List.tail).map (seek next)).map List.length).sum <
      (iters.map List.length).sum := by
  rw [List.map_map (f := List.tail)]
  have le (it : List α) : (seek next it.tail).length ≤ it.tail.length :=
    (seek_suffix next it.tail).length_le
  obtain ⟨first, hfirst, nonempty⟩ := some'
  refine sum_length_lt (fun it _ => (le it).trans it.tail_sublist.length_le)
    ⟨first, hfirst, (le first).trans_lt ?_⟩
  cases first with
  | nil => exact absurd rfl nonempty
  | cons a l => exact Nat.lt_succ_self _

theorem sum_seek_lt {iters : List (List α)} {x y : α} (here : ∃ it ∈ iters, it.head? = some x)
    (above : x < y) : ((iters.map (seek y)).map List.length).sum < (iters.map List.length).sum := by
  obtain ⟨it, hit, here⟩ := here
  exact sum_length_lt (fun it _ => (seek_suffix y it).length_le)
    ⟨it, hit, length_seek_lt here above⟩

section Loop

variable {x : α} {iters : List (List α)}

/-- A round in which all iterators stand on the target. -/
theorem emit_spec {fuel : Nat} (sorted : ∀ it ∈ iters, it.Pairwise (· < ·))
    (heads : ∀ it ∈ iters, it.head? = some x) (nonempty : ∃ it, it ∈ iters)
    (rest : ∀ next, (∀ it ∈ iters.map List.tail, it.Pairwise (· < ·)) →
      (∃ it ∈ iters.map List.tail, it.head? = some next) →
      (((iters.map List.tail).map (seek next)).map List.length).sum < (iters.map List.length).sum →
      (∀ v, v ∈ loop fuel next (iters.map List.tail) ↔
        next ≤ v ∧ ∀ it ∈ iters.map List.tail, v ∈ it) ∧
          (loop fuel next (iters.map List.tail)).Pairwise (· < ·)) :
    (∀ v, v ∈ (match maxKey (iters.map List.tail) with
        | none => [x]
        | some next => x :: loop fuel next (iters.map List.tail)) ↔ ∀ it ∈ iters, v ∈ it) ∧
      (match maxKey (iters.map List.tail) with
        | none => [x]
        | some next => x :: loop fuel next (iters.map List.tail)).Pairwise (· < ·) := by
  have emitted : ∀ it ∈ iters, x ∈ it := fun it hit => List.mem_of_mem_head? (heads it hit)
  have tails {v : α} : (∀ it ∈ iters.map List.tail, v ∈ it) ↔ ∀ it ∈ iters, v ∈ it ∧ x < v := by
    rw [List.forall_mem_map]
    exact forall₂_congr fun it hit => mem_tail (sorted it hit) (heads it hit)
  obtain ⟨first, hfirst⟩ := nonempty
  split
  · rename_i none
    refine ⟨fun v => ?_, List.pairwise_singleton _ _⟩
    rw [List.mem_singleton]
    constructor
    · rintro rfl
      exact emitted
    · intro common
      by_contra different
      have above := lt_of_le_of_ne (head_le (sorted _ hfirst) (heads _ hfirst) (common _ hfirst))
        (Ne.symm different)
      have inTail := (mem_tail (sorted _ hfirst) (heads _ hfirst)).mpr ⟨common _ hfirst, above⟩
      rw [maxKey_eq_none_iff.mp none _ (List.mem_map_of_mem hfirst)] at inTail
      cases inTail
  · rename_i next largest
    obtain ⟨⟨top, htop, heading⟩, -⟩ := maxKey_eq_some_iff.mp largest
    have sortedTails : ∀ it ∈ iters.map List.tail, it.Pairwise (· < ·) := by
      rw [List.forall_mem_map]
      exact fun it hit => (sorted it hit).sublist it.tail_sublist
    have shorter : (((iters.map List.tail).map (seek next)).map List.length).sum <
        (iters.map List.length).sum :=
      sum_seek_tail_lt next ⟨first, hfirst, List.ne_nil_of_mem (emitted first hfirst)⟩
    obtain ⟨common, increasing⟩ := rest next sortedTails ⟨top, htop, heading⟩ shorter
    have raised : x < next := by
      obtain ⟨it, hit, rfl⟩ := List.mem_map.mp htop
      exact ((mem_tail (sorted it hit) (heads it hit)).mp (List.mem_of_mem_head? heading)).2
    refine ⟨fun v => ?_, List.pairwise_cons.mpr ⟨fun v hv => ?_, increasing⟩⟩
    · rw [List.mem_cons, common, tails]
      constructor
      · rintro (rfl | ⟨-, all⟩)
        · exact emitted
        · exact fun it hit => (all it hit).1
      · intro all
        by_cases same : v = x
        · exact .inl same
        · have above := lt_of_le_of_ne (head_le (sorted _ hfirst) (heads _ hfirst) (all _ hfirst))
            (Ne.symm same)
          have inTails := tails.mpr fun it hit => ⟨all it hit, above⟩
          exact .inr ⟨head_le (sortedTails top htop) heading (inTails top htop),
            fun it hit => ⟨all it hit, above⟩⟩
    · exact raised.trans_le ((common v).mp hv).1

theorem length_sought_lt (x : α) (iters : List (List α)) :
    ((iters.map (seek x)).map List.length).sum < (iters.map List.length).sum + 1 := by
  rw [List.map_map]
  exact Nat.lt_succ_of_le (List.sum_le_sum fun it _ => (seek_suffix x it).length_le)

/-- From a target that is the key of an iterator, the loop finds the common values that
are not below it, in increasing order. -/
theorem loop_spec {fuel : Nat} (sorted : ∀ it ∈ iters, it.Pairwise (· < ·))
    (anchor : ∃ it ∈ iters, it.head? = some x)
    (enough : ((iters.map (seek x)).map List.length).sum < fuel) :
    (∀ v, v ∈ loop fuel x iters ↔ x ≤ v ∧ ∀ it ∈ iters, v ∈ it) ∧
      (loop fuel x iters).Pairwise (· < ·) := by
  induction fuel generalizing x iters with
  | zero => exact absurd enough (Nat.not_lt_zero _)
  | succ fuel ih =>
    -- What is common from the target on is common to the iterators that have sought it.
    have sought : ∀ v, (x ≤ v ∧ ∀ it ∈ iters, v ∈ it) ↔ ∀ it ∈ iters.map (seek x), v ∈ it := by
      intro v
      rw [List.forall_mem_map]
      constructor
      · intro ⟨high, common⟩ it hit
        exact (mem_seek (sorted it hit)).mpr ⟨common it hit, high⟩
      · intro common
        obtain ⟨it, hit, -⟩ := anchor
        exact ⟨((mem_seek (sorted it hit)).mp (common it hit)).2,
          fun it hit => ((mem_seek (sorted it hit)).mp (common it hit)).1⟩
    have sorted' : ∀ it ∈ iters.map (seek x), it.Pairwise (· < ·) := by
      rw [List.forall_mem_map]
      exact fun it hit => sorted_seek (sorted it hit)
    have anchor' : ∃ it ∈ iters.map (seek x), it.head? = some x := by
      obtain ⟨it, hit, here⟩ := anchor
      exact ⟨it, List.mem_map.mpr ⟨it, hit, seek_of_head here⟩, here⟩
    have low : ∀ it ∈ iters.map (seek x), ∀ v ∈ it, x ≤ v := by
      rw [List.forall_mem_map]
      exact fun it hit v hv => ((mem_seek (sorted it hit)).mp hv).2
    simp only [sought]
    rw [loop]
    generalize iters.map (seek x) = its at *
    dsimp only
    split
    · rename_i ended
      refine ⟨fun v => ?_, List.Pairwise.nil⟩
      simp only [List.not_mem_nil, false_iff]
      exact fun common => absurd (common [] ended) List.not_mem_nil
    rename_i running
    split
    · rename_i none
      obtain ⟨it, hit, here⟩ := anchor'
      rw [maxKey_eq_none_iff.mp none it hit] at here
      cases here
    rename_i newMax largest
    obtain ⟨⟨top, htop, heading⟩, above⟩ := maxKey_eq_some_iff.mp largest
    split
    · rename_i same
      subst same
      have heads : ∀ it ∈ its, it.head? = some newMax := by
        intro it hit
        cases it with
        | nil => exact absurd hit running
        | cons a it =>
          have equal : a = newMax :=
            le_antisymm (above _ hit a rfl) (low _ hit a List.mem_cons_self)
          rw [equal, List.head?_cons]
      exact emit_spec sorted' heads ⟨top, htop⟩ fun next sortedTails anchored enoughTails =>
        ih sortedTails anchored (by omega)
    · rename_i different
      obtain ⟨it, hit, here⟩ := anchor'
      have raised : x < newMax := lt_of_le_of_ne (above it hit x here) (Ne.symm different)
      have shorter : ((its.map (seek newMax)).map List.length).sum <
          (its.map List.length).sum := sum_seek_lt ⟨it, hit, here⟩ raised
      obtain ⟨common, increasing⟩ := ih sorted' ⟨top, htop, heading⟩ (by omega)
      refine ⟨fun v => ?_, increasing⟩
      rw [common]
      exact and_iff_right_of_imp fun all => head_le (sorted' top htop) heading (all top htop)

theorem mem_intersect (sorted : ∀ it ∈ iters, it.Pairwise (· < ·)) (nonempty : iters ≠ [])
    {v : α} :
    v ∈ intersect iters ↔ ∀ it ∈ iters, v ∈ it := by
  rw [intersect]
  split
  · rename_i ended
    simp only [List.not_mem_nil, false_iff]
    exact fun common => absurd (common [] ended) List.not_mem_nil
  rename_i running
  split
  · rename_i none
    obtain ⟨it, hit⟩ := List.exists_mem_of_ne_nil _ nonempty
    exact absurd (maxKey_eq_none_iff.mp none it hit ▸ hit) running
  · rename_i x largest
    obtain ⟨⟨top, htop, heading⟩, -⟩ := maxKey_eq_some_iff.mp largest
    rw [(loop_spec sorted ⟨top, htop, heading⟩ (length_sought_lt x iters)).1]
    exact and_iff_right_of_imp fun all => head_le (sorted top htop) heading (all top htop)

theorem sorted_intersect (sorted : ∀ it ∈ iters, it.Pairwise (· < ·)) :
    (intersect iters).Pairwise (· < ·) := by
  rw [intersect]
  split
  · exact List.Pairwise.nil
  split
  · exact List.Pairwise.nil
  · rename_i x largest
    obtain ⟨anchor, -⟩ := maxKey_eq_some_iff.mp largest
    exact (loop_spec sorted anchor (length_sought_lt x iters)).2

theorem nodup_intersect (sorted : ∀ it ∈ iters, it.Pairwise (· < ·)) :
    (intersect iters).Nodup := (sorted_intersect sorted).imp fun less => less.ne

end Loop

section SortDedup

variable {l : List α} {x : α}

/-- `sort_unstable` and `dedup`. -/
def sortDedup (l : List α) : List α := (l.insertionSort (· ≤ ·)).dedup

@[simp] theorem mem_sortDedup : x ∈ sortDedup l ↔ x ∈ l := by
  rw [sortDedup, List.mem_dedup, List.mem_insertionSort]

theorem sorted_sortDedup (l : List α) : (sortDedup l).Pairwise (· < ·) := by
  have sorted : (sortDedup l).Pairwise (· ≤ ·) :=
    (List.pairwise_insertionSort (· ≤ ·) l).sublist (List.dedup_sublist _)
  exact (sorted.and (List.nodup_dedup _)).imp fun h => lt_of_le_of_ne h.1 h.2

end SortDedup

section Ranges

variable {β : Type*}

/-- The run of `key` began at `start`; `i` is the position of the list. -/
def rangesFrom (i : Nat) (key : α) (start : Nat) : List (α × β) → List (α × Nat × Nat)
  | [] => [(key, start, i)]
  | (k, _) :: pairs =>
    if k = key then rangesFrom (i + 1) key start pairs
    else (key, start, i) :: rangesFrom (i + 1) k i pairs

/-- For each key the positions `[start, end)` of its pairs, in a list sorted by keys. -/
def buildRanges : List (α × β) → List (α × Nat × Nat)
  | [] => []
  | (k, _) :: pairs => rangesFrom 1 k 0 pairs

/-- The values of a key. -/
def valuesOf (pairs : List (α × β)) (ranges : List (α × Nat × Nat)) (key : α) : List β :=
  match ranges.find? fun r => r.1 = key with
  | some (_, start, stop) => ((pairs.drop start).take (stop - start)).map Prod.snd
  | none => []

variable {pairs : List (α × β)} {key k : α}

theorem mem_keys_rangesFrom {i start : Nat} :
    k ∈ (rangesFrom i key start pairs).map Prod.fst ↔ k = key ∨ k ∈ pairs.map Prod.fst := by
  induction pairs generalizing i key start with
  | nil => simp [rangesFrom]
  | cons pair pairs ih =>
    obtain ⟨k', v⟩ := pair
    rw [rangesFrom]
    split
    · rename_i same
      rw [ih, List.map_cons, List.mem_cons, same]
      tauto
    · rw [List.map_cons, List.mem_cons, ih, List.map_cons, List.mem_cons]

@[simp] theorem mem_keys_buildRanges :
    k ∈ (buildRanges pairs).map Prod.fst ↔ k ∈ pairs.map Prod.fst := by
  cases pairs with
  | nil => rfl
  | cons pair pairs =>
    rw [buildRanges, mem_keys_rangesFrom, List.map_cons, List.mem_cons]

/-- A run stands between smaller and larger keys. -/
theorem filter_run {before run after : List (α × β)} (low : ∀ x ∈ before, x.1 < key)
    (same : ∀ x ∈ run, x.1 = key) (high : ∀ x ∈ after, key < x.1) :
    (before ++ run ++ after).filter (fun x => x.1 = key) = run := by
  have none : before.filter (fun x => x.1 = key) = [] :=
    List.filter_eq_nil_iff.mpr fun x hx => by simpa using (low x hx).ne
  have none' : after.filter (fun x => x.1 = key) = [] :=
    List.filter_eq_nil_iff.mpr fun x hx => by simpa using (high x hx).ne'
  have all : run.filter (fun x => x.1 = key) = run :=
    List.filter_eq_self.mpr fun x hx => by simpa using same x hx
  rw [List.filter_append, List.filter_append, none, none', all, List.nil_append, List.append_nil]

omit [LinearOrder α] in
theorem slice_run (before run after : List (α × β)) :
    ((before ++ run ++ after).drop before.length).take
      (before.length + run.length - before.length) = run := by
  rw [List.append_assoc, List.drop_left, Nat.add_sub_cancel_left, List.take_left]

/-- Each range holds the pairs of its key. The list is split into what lies before the
current run, the run so far, and what is still to be scanned. -/
theorem slice_rangesFrom (before run : List (α × β)) (low : ∀ x ∈ before, x.1 < key)
    (same : ∀ x ∈ run, x.1 = key) (high : ∀ x ∈ pairs, key ≤ x.1)
    (sorted : pairs.Pairwise fun x y => x.1 ≤ y.1) {r : α × Nat × Nat}
    (hr : r ∈ rangesFrom (before.length + run.length) key before.length pairs) :
    ((before ++ run ++ pairs).drop r.2.1).take (r.2.2 - r.2.1) =
      (before ++ run ++ pairs).filter fun x => x.1 = r.1 := by
  induction pairs generalizing before run key with
  | nil =>
    cases List.mem_singleton.mp hr
    rw [slice_run, filter_run low same (List.forall_mem_nil _)]
  | cons pair pairs ih =>
    obtain ⟨k', v⟩ := pair
    obtain ⟨least, rest⟩ := List.pairwise_cons.mp sorted
    rw [rangesFrom] at hr
    split at hr
    · rename_i equal
      have longer : before ++ run ++ (k', v) :: pairs = before ++ (run ++ [(k', v)]) ++ pairs := by
        simp
      rw [longer]
      refine ih _ _ low ?_ (fun x hx => high x (List.mem_cons_of_mem _ hx)) rest ?_
      · intro x hx
        obtain hx | hx := List.mem_append.mp hx
        · exact same x hx
        · cases List.mem_singleton.mp hx
          exact equal
      · rw [List.length_append, List.length_singleton, ← Nat.add_assoc]
        exact hr
    · rename_i different
      have above : key < k' := lt_of_le_of_ne (high _ List.mem_cons_self) (Ne.symm different)
      have after : ∀ x ∈ (k', v) :: pairs, key < x.1 := by
        intro x hx
        obtain rfl | hx := List.mem_cons.mp hx
        · exact above
        · exact above.trans_le (least x hx)
      obtain rfl | hr := List.mem_cons.mp hr
      · rw [slice_run, filter_run low same after]
      · have moved : before ++ run ++ (k', v) :: pairs = (before ++ run) ++ [(k', v)] ++ pairs := by
          simp
        rw [moved]
        refine ih _ _ ?_ (fun x hx => by cases List.mem_singleton.mp hx; rfl) least rest ?_
        · intro x hx
          obtain hx | hx := List.mem_append.mp hx
          · exact (low x hx).trans above
          · rw [same x hx]
            exact above
        · rw [List.length_append, List.length_singleton]
          exact hr

theorem slice_buildRanges (sorted : pairs.Pairwise fun x y => x.1 ≤ y.1) {r : α × Nat × Nat}
    (hr : r ∈ buildRanges pairs) :
    (pairs.drop r.2.1).take (r.2.2 - r.2.1) = pairs.filter fun x => x.1 = r.1 := by
  cases pairs with
  | nil => cases hr
  | cons pair pairs =>
    obtain ⟨least, rest⟩ := List.pairwise_cons.mp sorted
    exact slice_rangesFrom [] [pair] (List.forall_mem_nil _)
      (fun x hx => by cases List.mem_singleton.mp hx; rfl) least rest hr

/-- The index finds the values of each key. -/
theorem mem_valuesOf (sorted : pairs.Pairwise fun x y => x.1 ≤ y.1) {v : β} :
    v ∈ valuesOf pairs (buildRanges pairs) key ↔ (key, v) ∈ pairs := by
  rw [valuesOf]
  split
  · rename_i k' start stop found
    have range := slice_buildRanges sorted (List.mem_of_find?_eq_some found)
    have named : k' = key := by simpa using List.find?_some found
    dsimp only at range
    rw [range, List.mem_map]
    constructor
    · rintro ⟨⟨k'', v'⟩, hv, rfl⟩
      obtain ⟨hv, same⟩ := List.mem_filter.mp hv
      rw [← named, ← of_decide_eq_true same]
      exact hv
    · intro hv
      exact ⟨(key, v), List.mem_filter.mpr ⟨hv, by simp [named]⟩, rfl⟩
  · rename_i missing
    simp only [List.not_mem_nil, false_iff]
    intro hv
    obtain ⟨r, hr, same⟩ := List.mem_map.mp
      (mem_keys_buildRanges.mpr (List.mem_map.mpr ⟨(key, v), hv, rfl⟩))
    simpa [same] using List.find?_eq_none.mp missing r hr

end Ranges

end Leapfrog
