import Mathlib.Data.Option.Basic
import Mathlib.Logic.Function.Basic

/-!
# Rows under row locks

A row has a committed version and, while some open transaction holds its lock, the version
that this transaction has written. Nobody else sees that version before the commit, and
nobody else can write the row. A statement of another transaction waits for the row, or skips
it.

`free_cases`, `commit_cases` and `rollback_cases` say what the operations can do; proofs about
tables of such rows do not unfold them.
-/

/-- The versions of one row, for sessions `ω` and contents `α`. -/
structure Versioned (ω α : Type*) where
  committed : Option α
  pending : Option (ω × α)
  deriving DecidableEq

namespace Versioned

variable {ω α : Type*}

/-- No row with this key. -/
def absent : Versioned ω α := ⟨none, none⟩

/-- The session writes a new version. -/
def write (v : Versioned ω α) (w : ω) (a : α) : Versioned ω α := { v with pending := some (w, a) }

@[simp] theorem write_committed (v : Versioned ω α) (w : ω) (a : α) :
    (v.write w a).committed = v.committed := rfl

@[simp] theorem write_pending (v : Versioned ω α) (w : ω) (a : α) :
    (v.write w a).pending = some (w, a) := rfl

/-- All versions, whoever sees them. -/
def versions (v : Versioned ω α) : List α := v.committed.toList ++ (v.pending.map Prod.snd).toList

@[simp] theorem mem_versions {v : Versioned ω α} {a : α} :
    a ∈ v.versions ↔ v.committed = some a ∨ ∃ w, v.pending = some (w, a) := by
  simp [versions, List.mem_append, Option.mem_toList]

variable [DecidableEq ω]

/-- The version in the snapshot of a session: its own one, or the committed one. -/
def seen (v : Versioned ω α) (w : ω) : Option α :=
  match v.pending with
  | some (w', a) => if w' = w then some a else v.committed
  | none => v.committed

/-- Another session holds the lock. -/
def locked (v : Versioned ω α) (w : ω) : Bool :=
  match v.pending with
  | some (w', _) => w' ≠ w
  | none => false

/-- The end of a transaction, for one row. -/
def commit (v : Versioned ω α) (w : ω) : Versioned ω α :=
  match v.pending with
  | some (w', a) => if w' = w then ⟨some a, none⟩ else v
  | none => v

/-- The transaction is undone, for one row. -/
def rollback (v : Versioned ω α) (w : ω) : Versioned ω α :=
  match v.pending with
  | some (w', _) => if w' = w then ⟨v.committed, none⟩ else v
  | none => v

variable {v : Versioned ω α} {w w' : ω} {a : α}

theorem seen_of_pending (h : v.pending = some (w, a)) : v.seen w = some a := by
  simp [seen, h]

theorem seen_of_ne (h : ∀ a, v.pending ≠ some (w, a)) : v.seen w = v.committed := by
  unfold seen
  split
  · rename_i w' a pending
    refine if_neg ?_
    rintro rfl
    exact h a pending
  · rfl

/-- A session sees the row through its own version or through the committed one. -/
theorem seen_cases (v : Versioned ω α) (w : ω) :
    (∃ a, v.pending = some (w, a) ∧ v.seen w = some a) ∨
      (∀ a, v.pending ≠ some (w, a)) ∧ v.seen w = v.committed := by
  by_cases own : ∃ a, v.pending = some (w, a)
  · obtain ⟨a, ha⟩ := own
    exact .inl ⟨a, ha, seen_of_pending ha⟩
  · have other : ∀ a, v.pending ≠ some (w, a) := fun a ha => own ⟨a, ha⟩
    exact .inr ⟨other, seen_of_ne other⟩

theorem mem_versions_of_seen (h : v.seen w = some a) : a ∈ v.versions := by
  obtain ⟨b, pending, sees⟩ | ⟨-, same⟩ := v.seen_cases w
  · rw [sees] at h
    cases h
    exact mem_versions.mpr (.inr ⟨w, pending⟩)
  · exact mem_versions.mpr (.inl (same.symm.trans h))

/-- What the holder of an unlocked row sees is its newest version. -/
theorem free_cases (free : v.locked w = false) :
    (v.pending = none ∧ v.seen w = v.committed) ∨
      ∃ a, v.pending = some (w, a) ∧ v.seen w = some a := by
  cases pending : v.pending with
  | none => exact .inl ⟨rfl, seen_of_ne fun a => by simp [pending]⟩
  | some p =>
    obtain ⟨w', a⟩ := p
    have own : w' = w := by simpa [locked, pending] using free
    subst own
    exact .inr ⟨a, rfl, seen_of_pending pending⟩

theorem commit_cases (v : Versioned ω α) (w : ω) :
    (∃ a, v.pending = some (w, a) ∧ v.commit w = ⟨some a, none⟩) ∨
      (∀ a, v.pending ≠ some (w, a)) ∧ v.commit w = v := by
  by_cases own : ∃ a, v.pending = some (w, a)
  · obtain ⟨a, pending⟩ := own
    exact .inl ⟨a, pending, by simp [commit, pending]⟩
  · have other a pending := own ⟨a, pending⟩
    refine .inr ⟨other, ?_⟩
    unfold commit
    split
    · rename_i w' a pending
      exact if_neg fun same : w' = w => other a (same ▸ pending)
    · rfl

theorem rollback_cases (v : Versioned ω α) (w : ω) :
    (∃ a, v.pending = some (w, a) ∧ v.rollback w = ⟨v.committed, none⟩) ∨
      (∀ a, v.pending ≠ some (w, a)) ∧ v.rollback w = v := by
  by_cases own : ∃ a, v.pending = some (w, a)
  · obtain ⟨a, pending⟩ := own
    exact .inl ⟨a, pending, by simp [rollback, pending]⟩
  · have other a pending := own ⟨a, pending⟩
    refine .inr ⟨other, ?_⟩
    unfold rollback
    split
    · rename_i w' a pending
      exact if_neg fun same : w' = w => other a (same ▸ pending)
    · rfl

/-- What is pending after a commit was pending before, for another session. -/
theorem pending_of_commit (h : (v.commit w).pending = some (w', a)) :
    v.pending = some (w', a) ∧ w' ≠ w := by
  obtain ⟨b, -, done⟩ | ⟨other, same⟩ := v.commit_cases w
  · rw [done] at h
    cases h
  · rw [same] at h
    refine ⟨h, ?_⟩
    rintro rfl
    exact other a h

theorem pending_of_rollback (h : (v.rollback w).pending = some (w', a)) :
    v.pending = some (w', a) ∧ w' ≠ w := by
  obtain ⟨b, -, done⟩ | ⟨other, same⟩ := v.rollback_cases w
  · rw [done] at h
    cases h
  · rw [same] at h
    refine ⟨h, ?_⟩
    rintro rfl
    exact other a h

@[simp] theorem rollback_committed (v : Versioned ω α) (w : ω) :
    (v.rollback w).committed = v.committed := by
  obtain ⟨a, -, done⟩ | ⟨-, same⟩ := v.rollback_cases w
  · rw [done]
  · rw [same]

/-- What is committed after a commit was committed before or pending for the session. -/
theorem committed_of_commit (h : (v.commit w).committed = some a) :
    v.pending = some (w, a) ∨ v.committed = some a := by
  obtain ⟨b, pending, done⟩ | ⟨-, same⟩ := v.commit_cases w
  · rw [done] at h
    cases h
    exact .inl pending
  · rw [same] at h
    exact .inr h

/-- A commit or a rollback brings no new version. -/
theorem versions_commit_subset (v : Versioned ω α) (w : ω) :
    (v.commit w).versions ⊆ v.versions := by
  intro a ha
  refine mem_versions.mpr ?_
  obtain committed | ⟨w', pending⟩ := mem_versions.mp ha
  · exact (committed_of_commit committed).symm.imp_right fun h => ⟨w, h⟩
  · exact .inr ⟨w', (pending_of_commit pending).1⟩

theorem versions_rollback_subset (v : Versioned ω α) (w : ω) :
    (v.rollback w).versions ⊆ v.versions := by
  intro a ha
  refine mem_versions.mpr ?_
  obtain committed | ⟨w', pending⟩ := mem_versions.mp ha
  · exact .inl ((v.rollback_committed w).symm.trans committed)
  · exact .inr ⟨w', (pending_of_rollback pending).1⟩

theorem commit_of_pending (h : v.pending = some (w, a)) : v.commit w = ⟨some a, none⟩ := by
  obtain ⟨b, pending, done⟩ | ⟨other, -⟩ := v.commit_cases w
  · rw [pending] at h
    cases h
    exact done
  · exact absurd h (other a)

theorem commit_of_other (h : v.pending = some (w', a)) (ne : w' ≠ w) : v.commit w = v := by
  obtain ⟨b, pending, -⟩ | ⟨-, same⟩ := v.commit_cases w
  · rw [pending] at h
    cases h
    exact absurd rfl ne
  · exact same

theorem rollback_of_other (h : v.pending = some (w', a)) (ne : w' ≠ w) : v.rollback w = v := by
  obtain ⟨b, pending, -⟩ | ⟨-, same⟩ := v.rollback_cases w
  · rw [pending] at h
    cases h
    exact absurd rfl ne
  · exact same

theorem rollback_of_idle (h : v.pending = none) : v.rollback w = v := by
  obtain ⟨b, pending, -⟩ | ⟨-, same⟩ := v.rollback_cases w
  · rw [pending] at h
    cases h
  · exact same

theorem commit_of_idle (h : v.pending = none) : v.commit w = v := by
  obtain ⟨b, pending, -⟩ | ⟨-, same⟩ := v.commit_cases w
  · rw [pending] at h
    cases h
  · exact same

end Versioned
