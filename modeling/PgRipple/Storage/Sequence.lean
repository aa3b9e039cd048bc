import Mathlib.Algebra.Order.Ring.Int
import Mathlib.Tactic.Common

/-!
# The statement-id sequence

Every stored row and every tombstone takes its statement id from one sequence,
created with `CACHE 64`. A session that runs out of cached values reserves a
block of 64 by advancing `last_value`, and then hands out the block one value at
a time without touching the sequence again. A session may therefore hand out an
id below the `last_value` another session reads; what remains true, and is kept
in the structure, is that nobody hands out an id above it.
-/

namespace PgRipple

/-- Dictionary ids: a `BIGINT` that stands for an IRI, a literal or a blank node. -/
abbrev TermId := Int

/-- A backend, identified by a number. -/
abbrev Session := Nat

namespace Storage

/-- The `CACHE` clause of `statement_id_seq`. -/
def cacheSize : Int := 64

/-- State of `_pg_ripple.statement_id_seq`. For each session, `cached` holds the
next value of its block and the block's last value. -/
structure Sequence where
  lastValue : Int
  isCalled : Bool
  cached : Session → Option (Int × Int)
  /-- Reserved blocks lie below `last_value`. -/
  cached_le : ∀ session next last, cached session = some (next, last) →
    next ≤ last ∧ last ≤ lastValue

namespace Sequence

/-- The sequence as created: `START 1`, nothing handed out. -/
def initial : Sequence where
  lastValue := 1
  isCalled := false
  cached := fun _ => none
  cached_le := by intro _ _ _ h; cases h

/-- What is left of a block after its first value is handed out. -/
def restOfBlock (next last : Int) : Option (Int × Int) :=
  if next < last then some (next + 1, last) else none

/-- The first value of the block that a session without cached values reserves. -/
def blockStart (q : Sequence) : Int := if q.isCalled then q.lastValue + 1 else q.lastValue

theorem lastValue_le_blockStart (q : Sequence) : q.lastValue ≤ q.blockStart := by
  unfold blockStart
  split <;> omega

theorem cached_restOfBlock {cached : Session → Option (Int × Int)} {session : Session}
    {next last bound : Int} (block : last ≤ bound)
    (others : ∀ s n l, cached s = some (n, l) → n ≤ l ∧ l ≤ bound) (s : Session) (n l : Int)
    (h : Function.update cached session (restOfBlock next last) s = some (n, l)) :
    n ≤ l ∧ l ≤ bound := by
  by_cases same : s = session
  · subst same
    rw [Function.update_self] at h
    unfold restOfBlock at h
    split at h
    · cases h
      exact ⟨by omega, block⟩
    · cases h
  · rw [Function.update_of_ne same] at h
    exact others s n l h

/-- `nextval`, called by a session: the value and the sequence afterwards. -/
def nextval (q : Sequence) (session : Session) : Int × Sequence :=
  match hq : q.cached session with
  | some (next, last) =>
    (next,
      { q with
        cached := Function.update q.cached session (restOfBlock next last)
        cached_le := cached_restOfBlock (q.cached_le session next last hq).2 q.cached_le })
  | none =>
    let first := q.blockStart
    let last := first + (cacheSize - 1)
    (first,
      { lastValue := last
        isCalled := true
        cached := Function.update q.cached session (restOfBlock first last)
        cached_le := cached_restOfBlock le_rfl fun s n l h =>
          ⟨(q.cached_le s n l h).1, by
            have := (q.cached_le s n l h).2
            have := q.lastValue_le_blockStart
            show l ≤ q.blockStart + (cacheSize - 1)
            unfold cacheSize
            omega⟩ })

/-- No session is handed an id above the `last_value` that follows the call. -/
theorem nextval_le_lastValue (q : Sequence) (session : Session) :
    (q.nextval session).1 ≤ (q.nextval session).2.lastValue := by
  unfold nextval
  split
  · rename_i next last hq
    have := q.cached_le session next last hq
    exact this.1.trans this.2
  · show q.blockStart ≤ q.blockStart + (cacheSize - 1)
    unfold cacheSize
    omega

theorem lastValue_le_nextval (q : Sequence) (session : Session) :
    q.lastValue ≤ (q.nextval session).2.lastValue := by
  unfold nextval
  split
  · exact le_rfl
  · have := q.lastValue_le_blockStart
    show q.lastValue ≤ q.blockStart + (cacheSize - 1)
    unfold cacheSize
    omega

/-- One `nextval` for each of several values in a row, as a multi-row insert draws
them for its candidate rows. -/
def stamp {α : Type*} (q : Sequence) (session : Session) : List α → List (α × Int) × Sequence
  | [] => ([], q)
  | x :: xs =>
    let (i, q) := q.nextval session
    let (rest, q) := q.stamp session xs
    ((x, i) :: rest, q)

section Stamp

variable {α : Type*} {q : Sequence} {session : Session} {xs : List α}

@[simp] theorem map_fst_stamp : (q.stamp session xs).1.map Prod.fst = xs := by
  induction xs generalizing q with
  | nil => rfl
  | cons x xs ih => simp only [stamp, List.map_cons, ih]

theorem lastValue_le_stamp : q.lastValue ≤ (q.stamp session xs).2.lastValue := by
  induction xs generalizing q with
  | nil => exact le_rfl
  | cons x xs ih => exact (q.lastValue_le_nextval session).trans ih

theorem stamp_le_lastValue {x : α × Int} (h : x ∈ (q.stamp session xs).1) :
    x.2 ≤ (q.stamp session xs).2.lastValue := by
  induction xs generalizing q with
  | nil => cases h
  | cons y ys ih =>
    cases List.mem_cons.mp h with
    | inl first =>
      rw [first]
      exact (q.nextval_le_lastValue session).trans lastValue_le_stamp
    | inr later => exact ih later

end Stamp

-- The source reads `0` as "no id". That is sound because the sequence starts at `1`
-- and ascends.

/-- Neither the sequence nor a reserved block is at `0` or below. -/
structure Positive (q : Sequence) : Prop where
  lastValue : 0 < q.lastValue
  cached : ∀ session next last, q.cached session = some (next, last) → 0 < next

theorem positive_initial : initial.Positive where
  lastValue := by decide
  cached _ _ _ h := by cases h

namespace Positive

variable {q : Sequence} {session : Session}

theorem restOfBlock {cached : Session → Option (Int × Int)} {next last : Int} (first : 0 < next)
    (others : ∀ s n l, cached s = some (n, l) → 0 < n) (s : Session) (n l : Int)
    (h : Function.update cached session (Sequence.restOfBlock next last) s = some (n, l)) :
    0 < n := by
  by_cases same : s = session
  · subst same
    rw [Function.update_self, Sequence.restOfBlock] at h
    split at h
    · cases h
      omega
    · cases h
  · rw [Function.update_of_ne same] at h
    exact others s n l h

/-- A drawn id is positive, and the sequence stays so. -/
theorem nextval (h : q.Positive) (session : Session) :
    0 < (q.nextval session).1 ∧ (q.nextval session).2.Positive := by
  unfold Sequence.nextval
  split
  · rename_i next last hq
    have first := h.cached session next last hq
    exact ⟨first, h.lastValue, restOfBlock first h.cached⟩
  · have first : 0 < q.blockStart := h.lastValue.trans_le q.lastValue_le_blockStart
    refine ⟨first, ?_, restOfBlock first h.cached⟩
    show 0 < q.blockStart + (cacheSize - 1)
    rw [cacheSize]
    omega

theorem stamp {α : Type*} {xs : List α} (h : q.Positive) : (q.stamp session xs).2.Positive := by
  induction xs generalizing q with
  | nil => exact h
  | cons x xs ih => exact ih (h.nextval session).2

end Positive

end Sequence

end Storage

end PgRipple
