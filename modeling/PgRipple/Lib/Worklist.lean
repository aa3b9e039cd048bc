import Mathlib.Data.Finset.Card
import Mathlib.Data.List.Dedup

/-!
# Worklist searches

`search` collects everything that can be reached from a list of starting points: it takes an
element from the frontier, and adds its successors that are new to the frontier and to the
result. `closed_search` says that the result is closed under successors if the fuel covers the
frontier and the elements that are still to come.
-/

namespace Worklist

variable {α : Type*} [DecidableEq α] {next : α → List α} {U frontier seen : List α} {fuel : Nat}

/-- The search, with all elements seen so far. -/
def search (next : α → List α) : (fuel : Nat) → (frontier seen : List α) → List α
  | 0, _, seen => seen
  | _ + 1, [], seen => seen
  | fuel + 1, x :: frontier, seen =>
    let new := (next x).dedup.filter fun y => y ∉ seen
    search next fuel (new ++ frontier) (seen ++ new)

theorem subset_search (next : α → List α) (fuel : Nat) (frontier seen : List α) :
    seen ⊆ search next fuel frontier seen := by
  induction fuel generalizing frontier seen with
  | zero => exact List.Subset.refl seen
  | succ fuel ih =>
    cases frontier with
    | nil => exact List.Subset.refl seen
    | cons x frontier => exact List.Subset.trans (List.subset_append_left _ _) (ih _ _)

/-- The elements of `U` that have not been seen. -/
def unseen (U seen : List α) : Nat := (U.toFinset \ seen.toFinset).card

/-- New elements use up the unseen ones. -/
theorem length_add_unseen_le {new : List α} (nodup : new.Nodup) (inside : ∀ y ∈ new, y ∈ U)
    (fresh : ∀ y ∈ new, y ∉ seen) : new.length + unseen U (seen ++ new) ≤ unseen U seen := by
  have subset : new.toFinset ⊆ U.toFinset \ seen.toFinset := by
    intro y hy
    rw [List.mem_toFinset] at hy
    rw [Finset.mem_sdiff, List.mem_toFinset, List.mem_toFinset]
    exact ⟨inside y hy, fresh y hy⟩
  have rest : U.toFinset \ (seen ++ new).toFinset = (U.toFinset \ seen.toFinset) \
      new.toFinset := by
    rw [List.toFinset_append, sdiff_sdiff_left]
    rfl
  rw [unseen, unseen, rest, ← List.toFinset_card_of_nodup nodup]
  have := Finset.card_sdiff_add_card_eq_card subset
  omega

/-- What is done with stays done when an element leaves the frontier for its new successors. -/
theorem done_step {x : α} {new frontier' : List α} (isNew : ∀ y, y ∈ new ↔ y ∈ next x ∧ y ∉ seen)
    (kept : ∀ y, y ∈ new ∨ y ∈ frontier → y ∈ frontier')
    (done : ∀ z ∈ seen, z ∉ x :: frontier → ∀ y ∈ next z, y ∈ seen) :
    ∀ z ∈ seen ++ new, z ∉ frontier' → ∀ y ∈ next z, y ∈ seen ++ new := by
  intro z hz old y hy
  have wasSeen : z ∈ seen := (List.mem_append.mp hz).resolve_right fun h => old (kept z (.inl h))
  by_cases current : z = x
  · subst current
    by_cases present : y ∈ seen
    · exact List.mem_append_left _ present
    · exact List.mem_append_right _ ((isNew y).mpr ⟨hy, present⟩)
  · refine List.mem_append_left _ (done z wasSeen ?_ y hy)
    intro inFrontier
    exact (List.mem_cons.mp inFrontier).elim current fun h => old (kept z (.inr h))

/-- Every successor of an element of the result is in the result. -/
theorem closed_search (inside : ∀ x, ∀ y ∈ next x, y ∈ U)
    (enough : frontier.length + unseen U seen ≤ fuel)
    (done : ∀ x ∈ seen, x ∉ frontier → ∀ y ∈ next x, y ∈ seen) :
    ∀ x ∈ search next fuel frontier seen, ∀ y ∈ next x, y ∈ search next fuel frontier seen := by
  induction fuel generalizing frontier seen with
  | zero =>
    have empty : frontier = [] := List.length_eq_zero_iff.mp (by omega)
    subst empty
    exact fun x hx => done x hx List.not_mem_nil
  | succ fuel ih =>
    cases frontier with
    | nil => exact fun x hx => done x hx List.not_mem_nil
    | cons x frontier =>
      refine ih ?_ (done_step (by simp) (by simp) done)
      have fewer := length_add_unseen_le (U := U)
        ((next x).nodup_dedup.filter fun y => y ∉ seen)
        (fun y hy => inside x y (List.mem_dedup.mp (List.mem_of_mem_filter hy)))
        (fun y hy => of_decide_eq_true (List.mem_filter.mp hy).2)
      rw [List.length_cons] at enough
      rw [List.length_append]
      omega

end Worklist
