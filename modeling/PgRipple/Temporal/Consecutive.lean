import PgRipple.Temporal.Facts
import Mathlib.Data.Finset.Sort
import Mathlib.Data.List.Sort

/-!
# Runs of facts

`temporal_consecutive` numbers the facts of each subject by their start and compares
the `n`-th of them with the first one. It is to find `n` facts of a subject that start
one after the other within the window.

Where the facts at the start of a history are at `n` instants within the window, both find it.
Apart from that, a history may have a run later only, which the query misses, or begin with `n`
facts only because some start together, which the query takes for a run.

Timestamps and the window are in microseconds.
-/

namespace PgRipple.Temporal

/-- The `valid_from` column of the facts of a subject. -/
def starts (facts : List (Fact Int)) (p s : TermId) : List Int :=
  (facts.filter fun f => f.p = p ∧ f.s = s).map Fact.validFrom

/-- A row of the subquery `ranked`. -/
structure Ranked where
  s : TermId
  validFrom : Int
  rn : Int
  firstVf : Int
  deriving DecidableEq, Repr

/-- The rows of one partition: `ROW_NUMBER() OVER (… ORDER BY valid_from)` and
`MIN(valid_from) OVER (…)`. -/
def rankedOf (facts : List (Fact Int)) (p s : TermId) : List Ranked :=
  ((starts facts p s).insertionSort (· ≤ ·)).zipIdx.map fun (validFrom, i) =>
    ⟨s, validFrom, i + 1, (starts facts p s).min?.getD validFrom⟩

/-- The subquery `ranked`, with its `PARTITION BY s`. -/
def ranked (facts : List (Fact Int)) (p : TermId) : List Ranked :=
  ((facts.filter fun f => f.p = p).map Fact.s).dedup.flatMap (rankedOf facts p)

/-- `temporal_consecutive`. -/
def temporalConsecutive (facts : List (Fact Int)) (n : Int) (p : TermId) (window : Int) : Bool :=
  (ranked facts p).any fun r => r.rn = n ∧ r.validFrom - r.firstVf ≤ window

/-- Some subject has `n` facts that start one after the other, the last at most `window` after
the first. -/
def HasRun (facts : List (Fact Int)) (n : Int) (p : TermId) (window : Int) : Prop :=
  ∃ s, ∃ run : List (Fact Int), (run.length : Int) = n ∧
    (∀ f ∈ run, f ∈ facts ∧ f.p = p ∧ f.s = s) ∧
    run.Pairwise (fun a b => a.validFrom < b.validFrom) ∧
    ∀ a ∈ run.head?, ∀ b ∈ run.getLast?, b.validFrom - a.validFrom ≤ window

/-- How many facts of the subject start within the window from `a` on. -/
def factsFrom (facts : List (Fact Int)) (p s : TermId) (window a : Int) : Nat :=
  (starts facts p s).countP fun t => a ≤ t ∧ t - a ≤ window

/-- At how many instants they start. -/
def instantsFrom (facts : List (Fact Int)) (p s : TermId) (window a : Int) : Nat :=
  (starts facts p s).dedup.countP fun t => a ≤ t ∧ t - a ≤ window

/-- The history of the subject begins with `n` instants within the window. -/
def OpensWithRun (facts : List (Fact Int)) (n : Int) (p : TermId) (window : Int)
    (s : TermId) : Prop :=
  ∃ a ∈ (starts facts p s).min?, n ≤ instantsFrom facts p s window a

/-- It has `n` instants within a window that begins later, but not at its start. -/
def RunsLaterOnly (facts : List (Fact Int)) (n : Int) (p : TermId) (window : Int)
    (s : TermId) : Prop :=
  ¬ OpensWithRun facts n p window s ∧
    ∃ a ∈ starts facts p s, n ≤ instantsFrom facts p s window a

/-- It begins with `n` facts within the window, but at fewer instants. -/
def OpensByTiesOnly (facts : List (Fact Int)) (n : Int) (p : TermId) (window : Int)
    (s : TermId) : Prop :=
  ¬ OpensWithRun facts n p window s ∧
    ∃ a ∈ (starts facts p s).min?, n ≤ factsFrom facts p s window a

section Query

variable {facts : List (Fact Int)} {n window : Int} {p s : TermId} {t : Int}

theorem mem_starts :
    t ∈ starts facts p s ↔ ∃ f ∈ facts, f.p = p ∧ f.s = s ∧ f.validFrom = t := by
  simp only [starts, List.mem_map, List.mem_filter, decide_eq_true_eq, and_assoc]

/-- In a sorted list the elements up to a bound come first. -/
theorem le_iff_lt_countP {l : List Int} {k : Nat} {x b : Int} (sorted : l.Pairwise (· ≤ ·))
    (found : l[k]? = some x) : x ≤ b ↔ k < l.countP fun t => t ≤ b := by
  induction l generalizing k with
  | nil => simp at found
  | cons a l ih =>
    obtain ⟨least, rest⟩ := List.pairwise_cons.mp sorted
    by_cases within : a ≤ b
    · rw [List.countP_cons, if_pos (by simpa using within)]
      cases k with
      | zero =>
        cases Option.some.inj found
        simp [within]
      | succ k => rw [ih rest found, Nat.succ_lt_succ_iff]
    · have beyond : (a :: l).countP (fun t => t ≤ b) = 0 := by
        rw [List.countP_eq_zero]
        intro t mem
        obtain rfl | mem := List.mem_cons.mp mem
        · simpa using within
        · have := least t mem
          simp only [decide_eq_true_eq]
          omega
      rw [beyond]
      obtain rfl | mem := List.mem_cons.mp (List.mem_of_getElem? found)
      · simp [within]
      · have := least x mem
        simp only [Nat.not_lt_zero, iff_false]
        omega

theorem first_le {a : Int} (first : a ∈ (starts facts p s).min?)
    (mem : t ∈ starts facts p s) : a ≤ t :=
  (List.min?_eq_some_iff.mp first).2 t mem

theorem exists_rankedOf_iff (positive : 1 ≤ n) :
    (∃ r ∈ rankedOf facts p s, r.rn = n ∧ r.validFrom - r.firstVf ≤ window) ↔
      ∃ a ∈ (starts facts p s).min?, n ≤ factsFrom facts p s window a := by
  have perm := List.perm_insertionSort (· ≤ ·) (starts facts p s)
  have sorted := List.pairwise_insertionSort (· ≤ ·) (starts facts p s)
  have counted {a : Int} (first : a ∈ (starts facts p s).min?) : factsFrom facts p s window a =
      ((starts facts p s).insertionSort (· ≤ ·)).countP fun t => t ≤ a + window := by
    rw [perm.countP_eq]
    refine List.countP_congr fun t mem => ?_
    have := first_le first mem
    simp only [decide_eq_true_eq]
    omega
  constructor
  · rintro ⟨r, mem, number, within⟩
    obtain ⟨⟨t, i⟩, found, rfl⟩ := List.mem_map.mp mem
    have at_ : ((starts facts p s).insertionSort (· ≤ ·))[i]? = some t :=
      List.mem_zipIdx_iff_getElem?.mp found
    dsimp only at number within
    have stored := perm.mem_iff.mp (List.mem_of_getElem? at_)
    obtain ⟨a, first⟩ := Option.isSome_iff_exists.mp (List.isSome_min?_of_mem stored)
    refine ⟨a, first, ?_⟩
    rw [first, Option.getD_some] at within
    have := (le_iff_lt_countP sorted at_).mp (show t ≤ a + window by omega)
    rw [counted first]
    omega
  · rintro ⟨a, first, enough⟩
    rw [counted first] at enough
    have bound := List.countP_le_length (p := fun t => t ≤ a + window)
      (l := (starts facts p s).insertionSort (· ≤ ·))
    obtain ⟨t, at_⟩ : ∃ t, ((starts facts p s).insertionSort (· ≤ ·))[(n - 1).toNat]? = some t :=
      ⟨_, List.getElem?_eq_getElem (by omega)⟩
    refine
      ⟨_, List.mem_map.mpr ⟨(t, (n - 1).toNat), List.mem_zipIdx_iff_getElem?.mpr at_, rfl⟩, ?_, ?_⟩
    · dsimp only
      omega
    · have within : t ≤ a + window := (le_iff_lt_countP sorted at_).mpr (by omega)
      dsimp only
      rw [first, Option.getD_some]
      omega

theorem temporalConsecutive_iff (positive : 1 ≤ n) :
    temporalConsecutive facts n p window = true ↔
      ∃ s, ∃ a ∈ (starts facts p s).min?, n ≤ factsFrom facts p s window a := by
  have rows : temporalConsecutive facts n p window = true ↔ ∃ s,
      (∃ f ∈ facts, f.p = p ∧ f.s = s) ∧
        ∃ r ∈ rankedOf facts p s, r.rn = n ∧ r.validFrom - r.firstVf ≤ window := by
    simp only [temporalConsecutive, ranked, List.any_eq_true, List.mem_flatMap, List.mem_dedup,
      List.mem_map, List.mem_filter, decide_eq_true_eq]
    constructor
    · rintro ⟨r, ⟨s, ⟨f, ⟨mem, pred⟩, subject⟩, inside⟩, holds⟩
      exact ⟨s, ⟨f, mem, pred, subject⟩, r, inside, holds⟩
    · rintro ⟨s, ⟨f, mem, pred, subject⟩, r, inside, holds⟩
      exact ⟨r, ⟨s, ⟨f, ⟨mem, pred⟩, subject⟩, inside⟩, holds⟩
  rw [rows]
  refine exists_congr fun s => ?_
  rw [exists_rankedOf_iff positive]
  refine and_iff_right_of_imp ?_
  rintro ⟨a, first, -⟩
  obtain ⟨f, mem, pred, subject, -⟩ := mem_starts.mp (List.min?_mem first)
  exact ⟨f, mem, pred, subject⟩

/-- The instants counted by `instantsFrom`. -/
theorem instantsFrom_eq (facts : List (Fact Int)) (p s : TermId) (window a : Int) :
    instantsFrom facts p s window a =
      ((starts facts p s).dedup.filter fun t => a ≤ t ∧ t - a ≤ window).length :=
  List.countP_eq_length_filter

/-- Instants at which a subject has facts are the starts of some of them. -/
theorem exists_run_of_starts {ts : List Int} (stored : ∀ t ∈ ts, t ∈ starts facts p s) :
    ∃ run : List (Fact Int), run.map Fact.validFrom = ts ∧
      ∀ f ∈ run, f ∈ facts ∧ f.p = p ∧ f.s = s := by
  induction ts with
  | nil => exact ⟨[], rfl, by simp⟩
  | cons t ts ih =>
    obtain ⟨head, rest⟩ := List.forall_mem_cons.mp stored
    obtain ⟨run, rfl, members⟩ := ih rest
    obtain ⟨f, mem, pred, subject, rfl⟩ := mem_starts.mp head
    exact ⟨f :: run, rfl, List.forall_mem_cons.mpr ⟨⟨mem, pred, subject⟩, members⟩⟩

/-- In a run that ends within the window all facts start within it. -/
theorem within_of_run {f : Fact Int} {run : List (Fact Int)}
    (rising : (f :: run).Pairwise fun a b => a.validFrom < b.validFrom)
    (within : ∀ b ∈ (f :: run).getLast?, b.validFrom - f.validFrom ≤ window) {t : Int}
    (mem : t ∈ (f :: run).map Fact.validFrom) : f.validFrom ≤ t ∧ t - f.validFrom ≤ window := by
  obtain ⟨x, member, rfl⟩ := List.mem_map.mp mem
  obtain ⟨b, last⟩ : ∃ b, (f :: run).getLast? = some b :=
    ⟨_, List.getLast?_eq_some_getLast (by simp)⟩
  obtain ⟨front, split⟩ := List.getLast?_eq_some_iff.mp last
  have upper : x.validFrom ≤ b.validFrom := by
    rw [split] at rising member
    obtain member | member := List.mem_append.mp member
    · have := (List.pairwise_append.mp rising).2.2 x member b (by simp)
      omega
    · rw [List.mem_singleton.mp member]
  have lower : f.validFrom ≤ x.validFrom := by
    obtain rfl | member := List.mem_cons.mp member
    · exact le_rfl
    · exact (List.pairwise_cons.mp rising).1 x member |>.le
  have := within b last
  omega

theorem hasRun_iff (positive : 1 ≤ n) :
    HasRun facts n p window ↔
      ∃ s, ∃ a ∈ starts facts p s, n ≤ instantsFrom facts p s window a := by
  constructor
  · rintro ⟨s, run, length, members, rising, within⟩
    cases run with
    | nil =>
      rw [List.length_nil] at length
      omega
    | cons f run =>
      have own {t : Int} (mem : t ∈ (f :: run).map Fact.validFrom) : t ∈ starts facts p s := by
        obtain ⟨x, member, rfl⟩ := List.mem_map.mp mem
        obtain ⟨stored, pred, subject⟩ := members x member
        exact mem_starts.mpr ⟨x, stored, pred, subject, rfl⟩
      refine ⟨s, f.validFrom, own (by simp), ?_⟩
      have nodup : ((f :: run).map Fact.validFrom).Nodup :=
        List.pairwise_map.mpr (rising.imp fun less => less.ne)
      have counted := List.subperm_of_subset nodup fun t mem => List.mem_filter.mpr
        ⟨List.mem_dedup.mpr (own mem), decide_eq_true (within_of_run rising (within f rfl) mem)⟩
      rw [instantsFrom_eq, ← length, ← List.length_map Fact.validFrom]
      exact_mod_cast counted.length_le
  · rintro ⟨s, a, -, enough⟩
    rw [instantsFrom_eq] at enough
    have perm := List.perm_insertionSort (· ≤ ·)
      ((starts facts p s).dedup.filter fun t => a ≤ t ∧ t - a ≤ window)
    have sorted := List.pairwise_insertionSort (· ≤ ·)
      ((starts facts p s).dedup.filter fun t => a ≤ t ∧ t - a ≤ window)
    have nodup := perm.nodup_iff.mpr ((List.nodup_dedup (starts facts p s)).filter _)
    generalize ((starts facts p s).dedup.filter fun t => a ≤ t ∧ t - a ≤ window).insertionSort
      (· ≤ ·) = ts at perm sorted nodup
    have inside {t : Int} (mem : t ∈ ts.take n.toNat) :
        t ∈ starts facts p s ∧ a ≤ t ∧ t - a ≤ window := by
      have kept := perm.mem_iff.mp (List.mem_of_mem_take mem)
      simpa [List.mem_filter, List.mem_dedup] using kept
    obtain ⟨run, same, members⟩ := exists_run_of_starts fun t mem => (inside mem).1
    have rising : (ts.take n.toNat).Pairwise (· < ·) :=
      ((sorted.and nodup).imp fun both => lt_of_le_of_ne both.1 both.2).sublist
        (List.take_sublist _ _)
    have within {f : Fact Int} (mem : f ∈ run) : a ≤ f.validFrom ∧ f.validFrom - a ≤ window :=
      (inside (same ▸ List.mem_map_of_mem mem)).2
    refine ⟨s, run, ?_, members, List.pairwise_map.mp (same ▸ rising), fun f first l last => ?_⟩
    · have := congrArg List.length same
      rw [List.length_map, List.length_take, perm.length_eq] at this
      omega
    · have lower := within (List.mem_of_mem_head? first)
      have upper := within (List.mem_of_getLast? last)
      omega

/-- There are at most as many instants as facts. -/
theorem instantsFrom_le (facts : List (Fact Int)) (p s : TermId) (window a : Int) :
    instantsFrom facts p s window a ≤ factsFrom facts p s window a :=
  (List.dedup_sublist _).countP_le

/-- The query is right exactly if some history opens with a run, or else if histories with a run
later only and histories that open by ties only are both there or both absent. -/
theorem temporalConsecutive_correct_iff (positive : 1 ≤ n) :
    (temporalConsecutive facts n p window = true ↔ HasRun facts n p window) ↔
      (∃ s, OpensWithRun facts n p window s) ∨
        ((∃ s, RunsLaterOnly facts n p window s) ↔ ∃ s, OpensByTiesOnly facts n p window s) := by
  rw [temporalConsecutive_iff positive, hasRun_iff positive]
  by_cases opens : ∃ s, OpensWithRun facts n p window s
  · obtain ⟨s, a, first, enough⟩ := opens
    have counted := instantsFrom_le facts p s window a
    refine iff_of_true (iff_of_true ⟨s, a, first, by omega⟩ ?_) (.inl ⟨s, a, first, enough⟩)
    exact ⟨s, a, List.min?_mem first, enough⟩
  · have none (s : TermId) : ¬ OpensWithRun facts n p window s := fun h => opens ⟨s, h⟩
    rw [or_iff_right opens]
    simp only [RunsLaterOnly, OpensByTiesOnly, none, not_false_eq_true, true_and]
    exact iff_comm

end Query

/-- Two readings a microsecond apart, at the start of a history. -/
theorem temporalConsecutive_correct_at_start :
    let facts : List (Fact Int) := [⟨1, 7, 3, 0, 1, none⟩, ⟨1, 7, 2, 0, 0, none⟩,
      ⟨1, 7, 2, 0, 50, none⟩]
    temporalConsecutive facts 2 7 1 = true ↔ HasRun facts 2 7 1 :=
  (temporalConsecutive_correct_iff (by decide)).mpr (.inl ⟨1, 0, by decide, by decide⟩)

/-- The same readings after an earlier one are not found. -/
theorem late_run_missed :
    let facts : List (Fact Int) := [⟨1, 7, 2, 0, 0, none⟩, ⟨1, 7, 2, 0, 100, none⟩,
      ⟨1, 7, 3, 0, 101, none⟩]
    ¬ (temporalConsecutive facts 2 7 1 = true ↔ HasRun facts 2 7 1) := by
  intro facts same
  have found : HasRun facts 2 7 1 :=
    ⟨1, facts.drop 1, rfl, by decide, by decide, by decide⟩
  exact absurd (same.mpr found) (by decide)

end PgRipple.Temporal
