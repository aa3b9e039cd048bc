import Mathlib.Data.Set.Lattice
import Mathlib.Data.List.Basic

/-!
# Engines that extend a set round by round

An engine has seeds and a step relation from one element to the next. `stage n` is
what it holds after `n` rounds, each of which adds the successors of everything
found so far.

`saturate` is the executable loop. It runs a bounded number of rounds, stops early
when a round adds nothing, and holds the stage of its bound in either case.

`stage_subset_iff` is the invariant rule. `stage_inter_subset_iff` compares two
engines on a set of interest: it is enough to follow the first engine from the
points where it leaves the second.
-/

/-- Seeds, and the steps from one element to another. -/
structure Engine (α : Type*) where
  seed : Set α
  step : α → α → Prop

namespace Engine

variable {α : Type*} {E E' : Engine α} {X G : Set α}

/-- The elements found within `n` rounds. -/
def stage (E : Engine α) : Nat → Set α
  | 0 => E.seed
  | n + 1 => E.stage n ∪ {b | ∃ a ∈ E.stage n, E.step a b}

@[simp] theorem stage_zero : E.stage 0 = E.seed := rfl

theorem mem_stage_succ {n : Nat} {b : α} :
    b ∈ E.stage (n + 1) ↔ b ∈ E.stage n ∨ ∃ a ∈ E.stage n, E.step a b := Iff.rfl

theorem stage_subset_succ (n : Nat) : E.stage n ⊆ E.stage (n + 1) := fun _ h => .inl h

theorem stage_mono {m n : Nat} (le : m ≤ n) : E.stage m ⊆ E.stage n := by
  induction le with
  | refl => exact subset_rfl
  | step _ ih => exact ih.trans (stage_subset_succ _)

theorem seed_subset_stage (n : Nat) : E.seed ⊆ E.stage n := stage_mono (Nat.zero_le n)

theorem mem_stage_of_step {k n : Nat} (lt : k < n) {a b : α} (ha : a ∈ E.stage k)
    (step : E.step a b) : b ∈ E.stage n :=
  stage_mono lt (.inr ⟨a, ha, step⟩)

/-- A stage that the next round leaves alone is final. -/
theorem stage_eq_of_closed {k n : Nat} (le : k ≤ n)
    (closed : ∀ a ∈ E.stage k, ∀ b, E.step a b → b ∈ E.stage k) : E.stage n = E.stage k := by
  induction le with
  | refl => rfl
  | step _ ih =>
    refine subset_antisymm ?_ (ih.symm.subset.trans (stage_subset_succ _))
    intro b hb
    cases mem_stage_succ.mp hb with
    | inl old => exact ih ▸ old
    | inr new =>
      obtain ⟨a, ha, step⟩ := new
      exact closed a (ih ▸ ha) b step

/-- Everything that is found in some round. -/
def reach (E : Engine α) : Set α := {a | ∃ n, a ∈ E.stage n}

theorem stage_subset_reach (n : Nat) : E.stage n ⊆ E.reach := fun _ h => ⟨n, h⟩

theorem mem_reach_of_step {a b : α} (ha : a ∈ E.reach) (step : E.step a b) : b ∈ E.reach := by
  obtain ⟨n, hn⟩ := ha
  exact ⟨n + 1, .inr ⟨a, hn, step⟩⟩

theorem reach_eq_of_closed {n : Nat}
    (closed : ∀ a ∈ E.stage n, ∀ b, E.step a b → b ∈ E.stage n) : E.reach = E.stage n := by
  refine subset_antisymm ?_ (stage_subset_reach n)
  intro a ⟨m, hm⟩
  cases Nat.le_total m n with
  | inl le => exact stage_mono le hm
  | inr le => exact stage_eq_of_closed le closed ▸ hm

/-- The invariant rule: seeds are in `X`, and steps between elements found in time
do not leave `X`. -/
theorem stage_subset_iff {n : Nat} :
    E.stage n ⊆ X ↔
      E.seed ⊆ X ∧ ∀ k < n, ∀ a ∈ E.stage k, a ∈ X → ∀ b, E.step a b → b ∈ X := by
  constructor
  · intro h
    refine ⟨(seed_subset_stage n).trans h, ?_⟩
    intro k lt a ha _ b step
    exact h (mem_stage_of_step lt ha step)
  · intro ⟨seeds, steps⟩
    have inv (m : Nat) (le : m ≤ n) : E.stage m ⊆ X := by
      induction m with
      | zero => exact seeds
      | succ m ih =>
        intro b hb
        cases mem_stage_succ.mp hb with
        | inl old => exact ih (by omega) old
        | inr new =>
          obtain ⟨a, ha, step⟩ := new
          exact steps m (by omega) a ha (ih (by omega) ha) b step
    exact inv n le_rfl

/-- An engine with fewer seeds and steps finds less. -/
theorem stage_subset_stage (seeds : E.seed ⊆ E'.seed) (steps : ∀ a b, E.step a b → E'.step a b)
    (n : Nat) : E.stage n ⊆ E'.stage n := by
  induction n with
  | zero => exact seeds
  | succ n ih =>
    intro b hb
    cases mem_stage_succ.mp hb with
    | inl old => exact stage_subset_succ n (ih old)
    | inr new =>
      obtain ⟨a, ha, step⟩ := new
      exact mem_stage_of_step (Nat.lt_succ_self n) (ih ha) (steps a b step)

/-- An engine that shares the seeds and steps of another on a set that no step enters finds
no more there. -/
theorem stage_inter_subset_stage (seeds : E.seed ∩ G ⊆ E'.seed)
    (steps : ∀ a b, E.step a b → b ∈ G → a ∈ G ∧ E'.step a b) (n : Nat) :
    E.stage n ∩ G ⊆ E'.stage n := by
  induction n with
  | zero => exact seeds
  | succ n ih =>
    intro b ⟨hb, inside⟩
    refine (mem_stage_succ.mp hb).imp (fun old => ih ⟨old, inside⟩) ?_
    intro ⟨a, ha, step⟩
    obtain ⟨inside, step'⟩ := steps a b step inside
    exact ⟨a, ih ⟨ha, inside⟩, step'⟩

/-- The same steps from a single seed. -/
def from_ (E : Engine α) (a : α) : Engine α := ⟨{a}, E.step⟩

theorem mem_stage_add {m n : Nat} {a b : α} (ha : a ∈ E.stage m)
    (hb : b ∈ (E.from_ a).stage n) : b ∈ E.stage (m + n) := by
  induction n generalizing b with
  | zero =>
    have same : b = a := hb
    exact same ▸ ha
  | succ n ih =>
    cases mem_stage_succ.mp hb with
    | inl old => exact stage_mono (by omega) (ih old)
    | inr new =>
      obtain ⟨c, hc, step⟩ := new
      exact mem_stage_of_step (by omega) (ih hc) step

/-- In round `n`, `E` reaches an element by a seed or a step that `E'` lacks. -/
def Leaves (E E' : Engine α) : Nat → α → Prop
  | 0, b => b ∈ E.seed ∧ b ∉ E'.seed
  | n + 1, b => ∃ a, a ∈ E.stage n ∧ a ∈ E'.stage n ∧ E.step a b ∧ ¬ E'.step a b

theorem Leaves.mem_stage {n : Nat} {b : α} (h : Leaves E E' n b) : b ∈ E.stage n := by
  cases n with
  | zero => exact h.1
  | succ n =>
    obtain ⟨a, ha, _, step, _⟩ := h
    exact mem_stage_of_step (Nat.lt_succ_self n) ha step

/-- Whatever `E` finds, `E'` finds as well or `E` reached it after leaving `E'`. -/
theorem mem_stage_or_leaves (E' : Engine α) {n : Nat} {b : α} (h : b ∈ E.stage n) :
    b ∈ E'.stage n ∨ ∃ k ≤ n, ∃ a, Leaves E E' k a ∧ b ∈ (E.from_ a).stage (n - k) := by
  induction n generalizing b with
  | zero =>
    by_cases shared : b ∈ E'.seed
    · exact .inl shared
    · exact .inr ⟨0, le_rfl, b, ⟨h, shared⟩, rfl⟩
  | succ n ih =>
    cases mem_stage_succ.mp h with
    | inl old =>
      refine (ih old).imp (fun hb => stage_subset_succ n hb) ?_
      intro ⟨k, le, a, leaves, hb⟩
      exact ⟨k, by omega, a, leaves, stage_mono (by omega) hb⟩
    | inr new =>
      obtain ⟨a, ha, step⟩ := new
      cases ih ha with
      | inl shared =>
        by_cases step' : E'.step a b
        · exact .inl (mem_stage_of_step (Nat.lt_succ_self n) shared step')
        · exact .inr ⟨n + 1, le_rfl, b, ⟨a, ha, shared, step, step'⟩, seed_subset_stage _ rfl⟩
      | inr apart =>
        obtain ⟨k, le, c, leaves, hc⟩ := apart
        refine .inr ⟨k, by omega, c, leaves, ?_⟩
        exact mem_stage_of_step (k := n - k) (by omega) hc step

/-- On a set of interest `G`, everything `E` finds lies in `X` if `X` has what `E'`
finds there and what `E` finds after leaving `E'`. -/
theorem stage_inter_subset_iff {n : Nat} (shared : E'.stage n ∩ G ⊆ X) :
    E.stage n ∩ G ⊆ X ↔
      ∀ k ≤ n, ∀ a, Leaves E E' k a → ∀ b ∈ (E.from_ a).stage (n - k), b ∈ G → b ∈ X := by
  constructor
  · intro h k le a leaves b hb hG
    have found := mem_stage_add leaves.mem_stage hb
    rw [Nat.add_sub_cancel' le] at found
    exact h ⟨found, hG⟩
  · intro h b ⟨hb, hG⟩
    cases mem_stage_or_leaves E' hb with
    | inl both => exact shared ⟨both, hG⟩
    | inr apart =>
      obtain ⟨k, le, a, leaves, reached⟩ := apart
      exact h k le a leaves b reached hG

section Saturate

variable [DecidableEq α]

/-- Run at most `rounds` rounds on `found`, counting from `count`. A round's
elements come without duplicates; those not yet found are appended. -/
def saturate (round : List α → Option (List α)) :
    (rounds count : Nat) → List α → Option (List α × Nat)
  | 0, count, found => some (found, count)
  | rounds + 1, count, found => do
    let new ← round found
    let fresh := new.filter fun b => b ∉ found
    if fresh.isEmpty then some (found, count + 1)
    else saturate round rounds (count + 1) (found ++ fresh)

variable {round : List α → Option (List α)} {rounds count : Nat} {found result : List α}
  {total : Nat}

/-- The loop holds the stage of its bound. -/
theorem mem_saturate_iff (steps : ∀ found new, round found = some new →
      ∀ b, b ∈ new ↔ ∃ a ∈ found, E.step a b)
    {n : Nat} (start : ∀ a, a ∈ found ↔ a ∈ E.stage n)
    (h : saturate round rounds count found = some (result, total)) (b : α) :
    b ∈ result ↔ b ∈ E.stage (n + rounds) := by
  induction rounds generalizing count found n with
  | zero =>
    cases h
    exact start b
  | succ rounds ih =>
    obtain ⟨new, hnew, h⟩ := Option.bind_eq_some_iff.mp h
    have successors := steps found new hnew
    dsimp only at h
    split at h
    · -- the round added nothing, so the present stage is final
      rename_i empty
      have closed : ∀ a ∈ E.stage n, ∀ c, E.step a c → c ∈ E.stage n := by
        intro a ha c step
        have present : c ∈ new := (successors c).mpr ⟨a, (start a).mpr ha, step⟩
        by_contra missing
        have : c ∈ new.filter fun b => b ∉ found := by
          simp [present, start, missing]
        rw [List.isEmpty_iff.mp empty] at this
        cases this
      cases h
      rw [stage_eq_of_closed (by omega) closed]
      exact start b
    · have next : ∀ a, a ∈ found ++ (new.filter fun b => b ∉ found) ↔ a ∈ E.stage (n + 1) := by
        intro a
        have isNew : a ∈ new ↔ ∃ c ∈ E.stage n, E.step c a := by
          rw [successors]
          simp only [start]
        rw [List.mem_append, List.mem_filter, mem_stage_succ, isNew, decide_eq_true_eq]
        by_cases old : a ∈ E.stage n <;> simp [old, start]
      have := ih next h
      rwa [show n + 1 + rounds = n + (rounds + 1) by omega] at this

/-- A loop that stopped before its bound has found everything. -/
theorem saturate_closed (steps : ∀ found new, round found = some new →
      ∀ b, b ∈ new ↔ ∃ a ∈ found, E.step a b)
    (h : saturate round rounds count found = some (result, total))
    (early : total < count + rounds) {a b : α} (ha : a ∈ result) (step : E.step a b) :
    b ∈ result := by
  induction rounds generalizing count found with
  | zero =>
    cases h
    omega
  | succ rounds ih =>
    obtain ⟨new, hnew, h⟩ := Option.bind_eq_some_iff.mp h
    dsimp only at h
    split at h
    · rename_i empty
      cases h
      have present : b ∈ new := (steps _ new hnew b).mpr ⟨a, ha, step⟩
      by_contra missing
      have : b ∈ new.filter fun c => c ∉ result := by simp [present, missing]
      rw [List.isEmpty_iff.mp empty] at this
      cases this
    · exact ih h (by omega)

end Saturate

end Engine
