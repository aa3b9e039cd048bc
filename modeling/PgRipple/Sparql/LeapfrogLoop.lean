import PgRipple.Sparql.TriejoinCorrect

/-!
# The loop over sorted iterators

`leapfrog_intersect` moves positions in vectors. What an iterator still has before it is a
list, and on these lists the loop is the one of the library: a round that seeks, and then
an advance of all iterators or a new target. The positions only grow, so it ends.

With it, `lfti_recurse` finds the assignments that satisfy every edge relation, for each
order of the variables.
-/

namespace PgRipple.Sparql

open Storage

/-- `SortedIterator`. -/
structure SortedIterator where
  values : List Int
  pos : Nat
  deriving DecidableEq, Repr

namespace SortedIterator

/-- `new`. -/
def new (values : List Int) : SortedIterator := ⟨Leapfrog.sortDedup values, 0⟩

/-- `at_end`. -/
def atEnd (it : SortedIterator) : Bool := it.values.length ≤ it.pos

/-- `key`; `none` is the panic of an iterator at its end. -/
def key (it : SortedIterator) : Option Int := it.values[it.pos]?

/-- `next`. -/
def next (it : SortedIterator) : SortedIterator :=
  if it.pos < it.values.length then { it with pos := it.pos + 1 } else it

/-- `partition_point`, for a slice in which the values with the property come first. -/
def partitionPoint (below : Int → Bool) (slice : List Int) : Nat := (slice.takeWhile below).length

/-- `seek`. -/
def seek (target : Int) (it : SortedIterator) : SortedIterator :=
  match it.key with
  | none => it
  | some k =>
    if target ≤ k then it
    else
      let offset := partitionPoint (fun v => v < target) (it.values.drop it.pos)
      { it with pos := it.pos + offset }

end SortedIterator

/-- One round: every iterator seeks `x`. The largest key and the iterators; `none` if one of
them is at its end. -/
def seekRound (x : Int) : List SortedIterator → Int → Option (Int × List SortedIterator)
  | [], newMax => some (newMax, [])
  | it :: iters, newMax =>
    let it := it.seek x
    match it.key with
    | none => none
    | some k =>
      let newMax := if newMax < k then k else newMax
      (seekRound x iters newMax).map fun (newMax, iters) => (newMax, it :: iters)

/-- The largest key of the iterators that are not at their end. -/
def nextMax (iters : List SortedIterator) : Option Int :=
  (iters.filterMap SortedIterator.key).max?

/-- `'outer: loop`. `none`: it needs more rounds. -/
def leapfrogLoop : (rounds : Nat) → Int → List SortedIterator → List Int → Option (List Int)
  | 0, _, _, _ => none
  | rounds + 1, x, iters, result =>
    match seekRound x iters x with
    | none => some result
    | some (newMax, iters) =>
      if newMax = x then
        let result := result ++ [x]
        let iters := iters.map SortedIterator.next
        match nextMax iters with
        | some v => leapfrogLoop rounds v iters result
        | none => some result
      else leapfrogLoop rounds newMax iters result

/-- `leapfrog_intersect`. -/
def leapfrogIntersect (rounds : Nat) (iters : List SortedIterator) : Option (List Int) :=
  if iters = [] then some []
  else if iters.any SortedIterator.atEnd then some []
  else leapfrogLoop rounds ((nextMax iters).getD (2 ^ 63 - 1)) iters []

namespace SortedIterator

/-- The values from the position on. -/
def rest (it : SortedIterator) : List Int := it.values.drop it.pos

@[simp] theorem rest_new (values : List Int) : (new values).rest = Leapfrog.sortDedup values := rfl

theorem key_eq (it : SortedIterator) : it.key = it.rest.head? := by
  rw [key, rest, List.head?_drop]

theorem atEnd_iff {it : SortedIterator} : it.atEnd = true ↔ it.rest = [] := by
  rw [atEnd, decide_eq_true_eq, rest, List.drop_eq_nil_iff]

@[simp] theorem rest_next (it : SortedIterator) : it.next.rest = it.rest.tail := by
  rw [next, rest, rest]
  split_ifs with inside
  · rw [List.tail_drop]
  · rw [List.drop_eq_nil_of_le (by omega), List.tail_nil]

@[simp] theorem rest_seek (target : Int) (it : SortedIterator) :
    (it.seek target).rest = Leapfrog.seek target it.rest := by
  rw [seek, key_eq]
  cases here : it.rest with
  | nil =>
    dsimp only [List.head?_nil]
    rw [here]
    rfl
  | cons k later =>
    dsimp only [List.head?_cons]
    split_ifs with reached
    · rw [here, Leapfrog.seek, List.dropWhile_cons_of_neg (by simpa using reached)]
    · have split : (it.rest.takeWhile (· < target) ++ it.rest.dropWhile (· < target)).drop
          (it.rest.takeWhile (· < target)).length = it.rest.dropWhile (· < target) :=
        List.drop_left
      rw [List.takeWhile_append_dropWhile] at split
      rw [← here, Leapfrog.seek, ← split]
      exact List.drop_drop.symm

end SortedIterator

section Loop

variable {x : Int} {iters iters' : List SortedIterator} {newMax m : Int}

theorem map_rest_seek (x : Int) (iters : List SortedIterator) :
    (iters.map (SortedIterator.seek x)).map SortedIterator.rest =
      (iters.map SortedIterator.rest).map (Leapfrog.seek x) := by
  simp [List.map_map]

theorem map_rest_next (iters : List SortedIterator) :
    (iters.map SortedIterator.next).map SortedIterator.rest =
      (iters.map SortedIterator.rest).map List.tail := by
  simp [List.map_map]

theorem nextMax_eq (iters : List SortedIterator) :
    nextMax iters = Leapfrog.maxKey (iters.map SortedIterator.rest) := by
  rw [nextMax, Leapfrog.maxKey, List.filterMap_map]
  exact congrArg List.max? (List.filterMap_congr fun it _ => it.key_eq)

/-- A round stops at an iterator that ends, and else finds the largest key from `m` on. -/
theorem seekRound_eq (x : Int) (iters : List SortedIterator) (m : Int) :
    seekRound x iters m =
      if [] ∈ (iters.map SortedIterator.rest).map (Leapfrog.seek x) then none
      else some ((((iters.map SortedIterator.rest).map (Leapfrog.seek x)).filterMap
        List.head?).foldl max m, iters.map (SortedIterator.seek x)) := by
  induction iters generalizing m with
  | nil => rfl
  | cons it iters ih =>
    rw [seekRound]
    dsimp only
    rw [SortedIterator.key_eq, SortedIterator.rest_seek, List.map_cons, List.map_cons]
    cases sought : Leapfrog.seek x it.rest with
    | nil => simp
    | cons k later =>
      have larger : (if m < k then k else m) = max m k := by
        split_ifs <;> omega
      have later' : ([] ∈ (k :: later) ::
          (iters.map SortedIterator.rest).map (Leapfrog.seek x)) ↔
            [] ∈ (iters.map SortedIterator.rest).map (Leapfrog.seek x) := by simp
      dsimp only [List.head?_cons]
      rw [ih, larger]
      by_cases ended : [] ∈ (iters.map SortedIterator.rest).map (Leapfrog.seek x)
      · rw [if_pos ended, if_pos (later'.mpr ended), Option.map_none]
      · rw [if_neg ended, if_neg (later'.not.mpr ended)]
        rfl

/-- A round without an end finds the largest key, which is not below the target. -/
theorem seekRound_target (sorted : ∀ it ∈ iters, it.rest.Pairwise (· < ·)) (nonempty : iters ≠ [])
    (running : [] ∉ (iters.map SortedIterator.rest).map (Leapfrog.seek x)) :
    ∃ newMax, Leapfrog.maxKey ((iters.map SortedIterator.rest).map (Leapfrog.seek x)) =
      some newMax ∧ seekRound x iters x = some (newMax, iters.map (SortedIterator.seek x)) := by
  rw [seekRound_eq, if_neg running]
  cases largest : Leapfrog.maxKey ((iters.map SortedIterator.rest).map (Leapfrog.seek x)) with
  | none =>
    obtain ⟨it, hit⟩ := List.exists_mem_of_ne_nil _ nonempty
    have sought := List.mem_map_of_mem (f := Leapfrog.seek x)
      (List.mem_map_of_mem (f := SortedIterator.rest) hit)
    rw [Leapfrog.maxKey_eq_none_iff.mp largest _ sought] at sought
    exact absurd sought running
  | some newMax =>
    obtain ⟨⟨top, htop, heading⟩, -⟩ := Leapfrog.maxKey_eq_some_iff.mp largest
    obtain ⟨_, left, rfl⟩ := List.mem_map.mp htop
    obtain ⟨it, hit, rfl⟩ := List.mem_map.mp left
    have above := ((Leapfrog.mem_seek (sorted it hit)).mp (List.mem_of_mem_head? heading)).2
    rw [Leapfrog.maxKey] at largest
    rw [List.foldl_max, largest, Option.getD_some, max_eq_right above]
    exact ⟨newMax, rfl, rfl⟩

/-- With rounds for all that is left after the first one, the loop of the code is that of the
library. -/
theorem leapfrogLoop_eq {rounds : Nat} {result : List Int}
    (sorted : ∀ it ∈ iters, it.rest.Pairwise (· < ·))
    (anchor : ∃ it ∈ iters.map SortedIterator.rest, it.head? = some x)
    (enough : (((iters.map SortedIterator.rest).map (Leapfrog.seek x)).map List.length).sum <
      rounds) :
    leapfrogLoop rounds x iters result =
      some (result ++ Leapfrog.loop rounds x (iters.map SortedIterator.rest)) := by
  induction rounds generalizing x iters result with
  | zero => exact absurd enough (Nat.not_lt_zero _)
  | succ rounds ih =>
    have nonempty : iters ≠ [] := by
      rintro rfl
      simp at anchor
    rw [leapfrogLoop, Leapfrog.loop]
    dsimp only
    by_cases ended : [] ∈ (iters.map SortedIterator.rest).map (Leapfrog.seek x)
    · rw [if_pos ended, seekRound_eq, if_pos ended, List.append_nil]
    obtain ⟨newMax, largest, found⟩ := seekRound_target sorted nonempty ended
    obtain ⟨top, -⟩ := Leapfrog.maxKey_eq_some_iff.mp largest
    have anchor' : ∃ it ∈ (iters.map SortedIterator.rest).map (Leapfrog.seek x),
        it.head? = some x := by
      obtain ⟨it, hit, here⟩ := anchor
      exact ⟨it, List.mem_map.mpr ⟨it, hit, Leapfrog.seek_of_head here⟩, here⟩
    have sorted' : ∀ it ∈ iters.map (SortedIterator.seek x), it.rest.Pairwise (· < ·) := by
      rw [List.forall_mem_map]
      intro it hit
      rw [SortedIterator.rest_seek]
      exact Leapfrog.sorted_seek (sorted it hit)
    rw [if_neg ended, found, largest]
    dsimp only
    rw [← map_rest_seek] at *
    generalize iters.map (SortedIterator.seek x) = sought at *
    split_ifs with same
    · -- all iterators stand on `x`, and go on from it
      have tails := map_rest_next sought
      rw [nextMax_eq, tails]
      cases next : Leapfrog.maxKey ((sought.map SortedIterator.rest).map List.tail) with
      | none => rfl
      | some v =>
        dsimp only
        rw [ih ?_ ?_ ?_, tails, List.append_assoc]
        · rfl
        · rw [List.forall_mem_map]
          intro it hit
          rw [SortedIterator.rest_next]
          exact (sorted' it hit).sublist (List.tail_sublist _)
        · rw [tails]
          exact (Leapfrog.maxKey_eq_some_iff.mp next).1
        · obtain ⟨it, hit, here⟩ := anchor'
          rw [tails]
          have less := Leapfrog.sum_seek_tail_lt v
            ⟨it, hit, List.ne_nil_of_mem (List.mem_of_mem_head? here)⟩
          omega
    · -- some iterator is beyond `x`, and the one on `x` will move
      refine ih sorted' top ?_
      have above : x < newMax := by
        obtain ⟨it, hit, here⟩ := anchor'
        exact lt_of_le_of_ne ((Leapfrog.maxKey_eq_some_iff.mp largest).2 it hit x here)
          (Ne.symm same)
      have less := Leapfrog.sum_seek_lt anchor' above
      omega

theorem leapfrogIntersect_new {lists : List (List Int)} {rounds : Nat}
    (enough : (lists.map List.length).sum < rounds) :
    leapfrogIntersect rounds (lists.map SortedIterator.new) =
      some (Leapfrog.intersect (lists.map Leapfrog.sortDedup)) := by
  have rests : (lists.map SortedIterator.new).map SortedIterator.rest =
      lists.map Leapfrog.sortDedup := by simp [List.map_map]
  have sorted : ∀ it ∈ lists.map Leapfrog.sortDedup, it.Pairwise (· < ·) := by
    rw [List.forall_mem_map]
    exact fun l _ => Leapfrog.sorted_sortDedup l
  have ended : (lists.map SortedIterator.new).any SortedIterator.atEnd = true ↔
      [] ∈ lists.map Leapfrog.sortDedup := by
    rw [← rests, List.any_eq_true, List.mem_map]
    simp only [SortedIterator.atEnd_iff]
  rw [leapfrogIntersect, Leapfrog.intersect, nextMax_eq, rests]
  by_cases none' : lists = []
  · subst none'
    rfl
  have some' : lists.map SortedIterator.new ≠ [] := by simpa using none'
  rw [if_neg some']
  by_cases stop : [] ∈ lists.map Leapfrog.sortDedup
  · rw [if_pos (ended.mpr stop), if_pos stop]
  rw [if_neg (ended.not.mpr stop), if_neg stop]
  cases largest : Leapfrog.maxKey (lists.map Leapfrog.sortDedup) with
  | none =>
    obtain ⟨l, hl⟩ := List.exists_mem_of_ne_nil _ none'
    have mem := List.mem_map_of_mem (f := Leapfrog.sortDedup) hl
    rw [Leapfrog.maxKey_eq_none_iff.mp largest _ mem] at mem
    exact absurd mem stop
  | some x =>
    obtain ⟨anchor, -⟩ := Leapfrog.maxKey_eq_some_iff.mp largest
    have bound : ((lists.map Leapfrog.sortDedup).map List.length).sum ≤
        (lists.map List.length).sum := by
      rw [List.map_map]
      refine List.sum_le_sum fun l _ => ?_
      exact (List.dedup_sublist _).length_le.trans (List.length_insertionSort _ _).le
    have sought := Leapfrog.length_sought_lt x (lists.map Leapfrog.sortDedup)
    have enough' : (((lists.map Leapfrog.sortDedup).map (Leapfrog.seek x)).map List.length).sum <
        rounds := by omega
    have sortedIters : ∀ it ∈ lists.map SortedIterator.new, it.rest.Pairwise (· < ·) := by
      rw [List.forall_mem_map]
      exact fun l _ => Leapfrog.sorted_sortDedup l
    have run : leapfrogLoop rounds x (lists.map SortedIterator.new) [] = _ :=
      leapfrogLoop_eq sortedIters (by rwa [rests]) (by rwa [rests])
    rw [Option.getD_some, run, rests, List.nil_append]
    -- the rounds that are left over make no difference
    obtain ⟨found, increasing⟩ := Leapfrog.loop_spec sorted anchor enough'
    obtain ⟨found', increasing'⟩ := Leapfrog.loop_spec sorted anchor sought
    exact congrArg some (increasing.eq_of_mem_iff increasing' fun v =>
      (found v).trans (found' v).symm)

end Loop

section Assignments

variable {patterns : List CyclicBgpPattern} {edges : TermId → List (TermId × TermId)}
  {edgeCache : TermId → Option EdgeData} {order : List String} {binding b : LftiBinding}

/-- The variable is an end of a pattern. -/
def Mentioned (patterns : List CyclicBgpPattern) (v : String) : Prop :=
  ∃ pat ∈ patterns, pat.subjectVar = v ∨ pat.objectVar = v

instance (patterns : List CyclicBgpPattern) (v : String) : Decidable (Mentioned patterns v) :=
  inferInstanceAs (Decidable (∃ pat ∈ patterns, pat.subjectVar = v ∨ pat.objectVar = v))

/-- The order lists all variables, each once. -/
structure VariableOrder (patterns : List CyclicBgpPattern) (order : List String) : Prop where
  nodup : order.Nodup
  lists : ∀ v, Mentioned patterns v → v ∈ order

/-- Variables without a pattern are passed over. -/
theorem lftiRecurse_filter
    (loaded : ∀ pat ∈ patterns, edgeCache pat.predId = some (.ofEdges (edges pat.predId))) :
    lftiRecurse patterns edgeCache order binding =
      lftiRecurse patterns edgeCache (order.filter fun v => Mentioned patterns v) binding := by
  induction order generalizing binding with
  | nil => rfl
  | cons v order ih =>
    by_cases mentioned : Mentioned patterns v
    · rw [List.filter_cons, if_pos (decide_eq_true mentioned), lftiRecurse, lftiRecurse]
      simp only [ih]
    · have none' : patterns.filterMap (candidates edgeCache binding v) = [] := by
        refine List.filterMap_eq_nil_iff.mpr fun pat hpat => ?_
        refine Option.not_isSome_iff_eq_none.mp fun found => mentioned ⟨pat, hpat, ?_⟩
        exact (isSome_candidates (loaded pat hpat)).mp found
      rw [List.filter_cons, if_neg (by simpa using mentioned), lftiRecurse, none', ih]

theorem mem_lftiRecurse_order
    (loaded : ∀ pat ∈ patterns, edgeCache pat.predId = some (.ofEdges (edges pat.predId)))
    (different : ∀ pat ∈ patterns, pat.subjectVar ≠ pat.objectVar)
    (listed : VariableOrder patterns order) :
    (lftiRecurse patterns edgeCache order fun _ => none).Nodup ∧
      ∀ b, b ∈ lftiRecurse patterns edgeCache order (fun _ => none) ↔
        (∀ v, ¬ Mentioned patterns v → b v = none) ∧ ∀ pat ∈ patterns, EdgeHolds edges b pat := by
  have subject {pat : CyclicBgpPattern} (hpat : pat ∈ patterns) :
      Mentioned patterns pat.subjectVar := ⟨pat, hpat, .inl rfl⟩
  have object {pat : CyclicBgpPattern} (hpat : pat ∈ patterns) :
      Mentioned patterns pat.objectVar := ⟨pat, hpat, .inr rfl⟩
  have kept {v : String} : v ∈ order.filter (fun v => Mentioned patterns v) ↔
      Mentioned patterns v := by
    rw [List.mem_filter, decide_eq_true_eq]
    exact and_iff_right_of_imp (listed.lists v)
  have search : Searchable patterns edges edgeCache
      (order.filter fun v => Mentioned patterns v) fun _ => none :=
    { loaded := loaded
      different := different
      nodup := listed.nodup.filter _
      unbound := fun _ _ => rfl
      occurs := fun v left => kept.mp left
      covered := fun pat hpat => ⟨.inl (kept.mpr (subject hpat)), .inl (kept.mpr (object hpat))⟩ }
  rw [lftiRecurse_filter loaded]
  refine ⟨search.nodup_lftiRecurse, fun b => ?_⟩
  rw [search.mem_lftiRecurse]
  simp only [kept]
  refine and_congr_right fun _ => forall₂_congr fun pat hpat => ?_
  exact forall_prop_of_true (.inl (subject hpat))

/-- The intersection ends with the values that are in all lists, in increasing order, and the
search for every order of the variables finds the assignments that give each pattern an edge. -/
theorem leapfrogTriejoin_correct :
    (∀ lists : List (List Int), ∃ result,
      (∀ rounds, (lists.map List.length).sum < rounds →
        leapfrogIntersect rounds (lists.map SortedIterator.new) = some result) ∧
      result.Pairwise (· < ·) ∧ ∀ v, v ∈ result ↔ lists ≠ [] ∧ ∀ l ∈ lists, v ∈ l) ∧
    ∀ (patterns : List CyclicBgpPattern) (edges : TermId → List (TermId × TermId))
      (edgeCache : TermId → Option EdgeData) (order : List String),
      (∀ pat ∈ patterns, edgeCache pat.predId = some (.ofEdges (edges pat.predId))) →
      (∀ pat ∈ patterns, pat.subjectVar ≠ pat.objectVar) → VariableOrder patterns order →
      (lftiRecurse patterns edgeCache order fun _ => none).Nodup ∧
        ∀ b, b ∈ lftiRecurse patterns edgeCache order (fun _ => none) ↔
          (∀ v, ¬ Mentioned patterns v → b v = none) ∧
            ∀ pat ∈ patterns, EdgeHolds edges b pat := by
  constructor
  · intro lists
    have sorted : ∀ it ∈ lists.map Leapfrog.sortDedup, it.Pairwise (· < ·) := by
      rw [List.forall_mem_map]
      exact fun l _ => Leapfrog.sorted_sortDedup l
    refine ⟨_, fun rounds enough => leapfrogIntersect_new enough,
      Leapfrog.sorted_intersect sorted, fun v => ?_⟩
    by_cases none' : lists = []
    · subst none'
      exact iff_of_false List.not_mem_nil fun both => both.1 rfl
    · rw [Leapfrog.mem_intersect sorted (by simpa using none'), List.forall_mem_map]
      simp only [Leapfrog.mem_sortDedup]
      exact (and_iff_right none').symm
  · intro patterns edges edgeCache order loaded different listed
    exact mem_lftiRecurse_order loaded different listed

/-- Three patterns in a cycle, with an order that also lists a variable of none of them. -/
theorem leapfrogTriejoin_correct_cycle :
    let patterns : List CyclicBgpPattern := [⟨"x", 1, "y"⟩, ⟨"y", 1, "z"⟩, ⟨"z", 1, "x"⟩]
    let edges : TermId → List (TermId × TermId) := fun _ => [(2, 3), (3, 4), (4, 2), (2, 2)]
    let found := lftiRecurse patterns (fun p => some (.ofEdges (edges p))) ["z", "w", "x", "y"]
      fun _ => none
    found.Nodup ∧ ∀ b, b ∈ found ↔ (∀ v, ¬ Mentioned patterns v → b v = none) ∧
      ∀ pat ∈ patterns, EdgeHolds edges b pat := by
  intro patterns edges found
  have listed : VariableOrder patterns ["z", "w", "x", "y"] := by
    refine ⟨by decide, ?_⟩
    rintro v ⟨pat, hpat, rfl | rfl⟩ <;> revert pat <;> decide
  exact leapfrogTriejoin_correct.2 patterns edges _ _ (fun _ _ => rfl) (by decide) listed

end Assignments

end PgRipple.Sparql
