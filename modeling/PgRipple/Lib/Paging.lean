import Mathlib.Data.List.Sort
import Mathlib.Data.List.Nodup
import Mathlib.Order.Basic

/-!
# Keyset pagination

A reader that wants a relation piece by piece, in the order of a rank, asks for the
first rows above the last rank it has seen and stops at a page that is not full. `read`
is what it takes from a row, or nothing if a column is missing.

If ranks do not repeat, no row is unreadable and a page may hold a row, the reader comes
to an end and has then seen every row once. Each of the three conditions is needed: equal
ranks at the edge of a page are skipped, an unreadable row makes a full page look like the
last one, and an empty page never ends the relation.
-/

namespace Paging

variable {ρ τ ι : Type*} [LinearOrder ι] (rank : ρ → ι) (read : ρ → Option (τ × ι))

/-- Rows above a rank, or all rows at the start. -/
def above (rows : List ρ) (last : Option ι) : List ρ :=
  rows.filter fun r => last.all (· < rank r)

/-- `SELECT … WHERE rank > last ORDER BY rank LIMIT size`. -/
def select (size : Nat) (rows : List ρ) (last : Option ι) : List ρ :=
  ((above rank rows last).insertionSort (rank · ≤ rank ·)).take size

/-- The batches handed on, in their order, unless the fuel runs out. -/
def loop (size : Nat) (rows : List ρ) : Nat → Option ι → Option (List (List τ))
  | 0, _ => none
  | fuel + 1, last =>
      let page := (select rank size rows last).filterMap read
      let batch := if page.isEmpty then [] else [page.map Prod.fst]
      let last := if page.isEmpty then last else page.getLast?.map Prod.snd
      if page.length < size then some batch
      else (loop size rows fuel last).map (batch ++ ·)

variable {rank} {read} {rows todo : List ρ} {size fuel : Nat} {last : Option ι}

/-- The rows that are left to read, in order. -/
def Left (rank : ρ → ι) (rows : List ρ) (last : Option ι) (todo : List ρ) : Prop :=
  todo.Perm (above rank rows last) ∧ todo.Pairwise (rank · < rank ·)

/-- Sorting has no choice where ranks do not repeat. -/
theorem select_of_left (left : Left rank rows last todo) :
    select rank size rows last = todo.take size := by
  have sorted : (above rank rows last).insertionSort (rank · ≤ rank ·) = todo := by
    have ascending : todo.Pairwise (rank · ≤ rank ·) := left.2.imp fun h => h.le
    have transitive : IsTrans ρ (rank · ≤ rank ·) := ⟨fun _ _ _ => le_trans⟩
    have total : Std.Total (α := ρ) (rank · ≤ rank ·) := ⟨fun _ _ => le_total _ _⟩
    have injective : ∀ a ∈ todo, ∀ b ∈ todo, rank a = rank b → a = b := by
      intro a ha b hb same
      have unique : (todo.map rank).Nodup := by
        rw [List.Nodup, List.pairwise_map]
        exact left.2.imp fun h => h.ne
      exact List.inj_on_of_nodup_map unique ha hb same
    have permuted := (List.perm_insertionSort (rank · ≤ rank ·) (above rank rows last)).trans
      left.1.symm
    refine permuted.eq_of_pairwise ?_ (List.pairwise_insertionSort _ _) ascending
    intro a b ha hb le ge
    exact injective a (permuted.subset ha) b hb (le_antisymm le ge)
  rw [select, sorted]

/-- After a full page what is left is the rest of the order. -/
theorem Left.next (left : Left rank rows last todo) {r : ρ}
    (final : (todo.take size).getLast? = some r) :
    Left rank rows (some (rank r)) (todo.drop size) := by
  obtain ⟨front, shape⟩ := List.getLast?_eq_some_iff.mp final
  have split : todo = front ++ r :: todo.drop size := by
    have whole := List.take_append_drop size todo
    rw [shape, List.append_assoc] at whole
    exact whole.symm
  have ordered := left.2
  rw [split, List.pairwise_append, List.pairwise_cons] at ordered
  obtain ⟨-, ⟨after, rest⟩, before⟩ := ordered
  refine ⟨?_, rest⟩
  have passed : ∀ x ∈ todo, last.all (· < rank x) := by
    intro x hx
    exact (List.mem_filter.mp (left.1.subset hx)).2
  have self : last.all (· < rank r) := by
    apply passed
    rw [split]
    simp
  have later : above rank rows (some (rank r)) =
      (above rank rows last).filter fun x => rank r < rank x := by
    rw [above, above, List.filter_filter]
    apply List.filter_congr
    intro x hx
    cases last with
    | none => simp
    | some i =>
      simp only [Option.all_some, decide_eq_true_eq] at self ⊢
      by_cases above : rank r < rank x
      · simp [above, self.trans above]
      · simp [above]
  have cut : todo.filter (fun x => rank r < rank x) = todo.drop size := by
    conv_lhs => rw [split]
    rw [List.filter_append, List.filter_cons]
    have none : front.filter (fun x => rank r < rank x) = [] := by
      rw [List.filter_eq_nil_iff]
      intro x hx
      have below := before x hx r List.mem_cons_self
      simpa using below.le
    have all : (todo.drop size).filter (fun x => rank r < rank x) = todo.drop size := by
      rw [List.filter_eq_self]
      intro x hx
      exact decide_eq_true (after x hx)
    rw [none, all]
    simp
  rw [later, ← cut]
  exact left.1.filter _

section Complete

variable {image : ρ → τ}

omit [LinearOrder ι] in
theorem filterMap_read (readable : ∀ r ∈ rows, read r = some (image r, rank r))
    (part : ∀ r ∈ todo, r ∈ rows) :
    todo.filterMap read = todo.map fun r => (image r, rank r) := by
  induction todo with
  | nil => rfl
  | cons r todo ih =>
    have here := readable r (part r List.mem_cons_self)
    have rest := ih fun x hx => part x (List.mem_cons_of_mem r hx)
    rw [List.filterMap_cons, here, rest, List.map_cons]

/-- From any point on, the reader sees what is left, once and in order. -/
theorem loop_of_left (readable : ∀ r ∈ rows, read r = some (image r, rank r)) (positive : 0 < size)
    (left : Left rank rows last todo) (enough : todo.length < fuel) :
    ∃ batches, loop rank read size rows fuel last = some batches ∧
      batches.flatten = todo.map image ∧
      ∀ batch ∈ batches, batch ≠ [] ∧ batch.length ≤ size := by
  induction fuel generalizing last todo with
  | zero => omega
  | succ fuel ih =>
    have stored : ∀ r ∈ todo.take size, r ∈ rows := by
      intro r hr
      have member := left.1.subset (List.mem_of_mem_take hr)
      exact List.mem_of_mem_filter member
    have page : (select rank size rows last).filterMap read =
        (todo.take size).map fun r => (image r, rank r) := by
      rw [select_of_left left]
      exact filterMap_read readable stored
    rw [loop]
    simp only [page, List.isEmpty_map, List.length_map, List.length_take, List.map_map,
      Function.comp_def, List.isEmpty_iff]
    by_cases full : todo.length < size
    · -- the page is not full: it is the rest
      have short : min size todo.length < size := by omega
      have whole : todo.take size = todo := List.take_of_length_le full.le
      rw [if_pos short, whole]
      refine ⟨_, rfl, ?_⟩
      by_cases none : todo = []
      · simp [none]
      · rw [if_neg none]
        refine ⟨by simp, ?_⟩
        intro batch hb
        rw [List.mem_singleton.mp hb]
        exact ⟨by simpa using none, by simpa using full.le⟩
    · have long : ¬ min size todo.length < size := by omega
      have some : todo.take size ≠ [] := by
        intro none
        have := congrArg List.length none
        rw [List.length_take, List.length_nil] at this
        omega
      have final : (todo.take size).getLast? = .some ((todo.take size).getLast some) :=
        List.getLast?_eq_some_getLast some
      have fewer : (todo.drop size).length < fuel := by
        rw [List.length_drop]
        omega
      obtain ⟨batches, result, flat, sizes⟩ := ih (left.next final) fewer
      rw [if_neg long, if_neg some, if_neg some, List.getLast?_map, final]
      simp only [Option.map_some, result]
      refine ⟨_, rfl, ?_, ?_⟩
      · rw [List.singleton_append, List.flatten_cons, flat, ← List.map_append,
          List.take_append_drop]
      · intro batch hb
        obtain rfl | hb := List.mem_cons.mp hb
        · refine ⟨by simpa using some, ?_⟩
          rw [List.length_map, List.length_take]
          omega
        · exact sizes batch hb

/-- A complete reading: with one unit of fuel for each row and one for the end, the batches
hold the relation, each row once. -/
theorem loop_complete (readable : ∀ r ∈ rows, read r = some (image r, rank r))
    (positive : 0 < size) (unique : (rows.map rank).Nodup) (enough : rows.length < fuel) :
    ∃ batches, loop rank read size rows fuel none = some batches ∧
      batches.flatten.Perm (rows.map image) ∧
      ∀ batch ∈ batches, batch ≠ [] ∧ batch.length ≤ size := by
  have everything : above rank rows none = rows := by
    simp [above]
  have transitive : IsTrans ρ (rank · ≤ rank ·) := ⟨fun _ _ _ => le_trans⟩
  have total : Std.Total (α := ρ) (rank · ≤ rank ·) := ⟨fun _ _ => le_total _ _⟩
  let todo := rows.insertionSort (rank · ≤ rank ·)
  have permuted : todo.Perm rows := List.perm_insertionSort _ _
  have strict : todo.Pairwise (rank · < rank ·) := by
    have distinct : todo.Pairwise (rank · ≠ rank ·) := by
      rw [← List.pairwise_map]
      exact (permuted.map rank).nodup_iff.mpr unique
    have ascending : todo.Pairwise (rank · ≤ rank ·) := List.pairwise_insertionSort _ _
    exact (ascending.and distinct).imp fun h => lt_of_le_of_ne h.1 h.2
  have left : Left rank rows none todo := by
    refine ⟨?_, strict⟩
    rw [everything]
    exact permuted
  have fuelled : todo.length < fuel := by
    rw [permuted.length_eq]
    exact enough
  obtain ⟨batches, result, flat, sizes⟩ := loop_of_left readable positive left fuelled
  refine ⟨batches, result, ?_, sizes⟩
  rw [flat]
  exact permuted.map image

theorem loop_mono {batches : List (List τ)} {more : Nat} (le : fuel ≤ more)
    (result : loop rank read size rows fuel last = some batches) :
    loop rank read size rows more last = some batches := by
  induction fuel generalizing last batches more with
  | zero => simp [loop] at result
  | succ fuel ih =>
    obtain ⟨more, rfl⟩ : ∃ n, more = n + 1 := ⟨more - 1, by omega⟩
    rw [loop] at result ⊢
    split at result
    · rename_i short
      rw [if_pos short]
      exact result
    · rename_i long
      obtain ⟨rest, later, rfl⟩ := Option.map_eq_some_iff.mp result
      rw [if_neg long, ih (by omega) later]
      rfl

end Complete

end Paging
