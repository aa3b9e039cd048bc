import PgRipple.Storage.Reachable
import PgRipple.Storage.Placement
import Mathlib.Logic.Relation

/-!
# Statement ids are handed out once

An id is pending as long as some session may still draw it: it lies in the rest of a session's
block, or above everything reserved. `nextval` takes a pending id and leaves it spent. Sessions
hold disjoint blocks, so no other session can hand the id out again, and nothing makes a spent id
pending later.

Storage operations only ever advance the sequence (`later_apply`).
-/

namespace PgRipple.Storage

namespace Sequence

/-- Some calls of `nextval`, of any sessions, lead from one state to the other. -/
def Later : Sequence → Sequence → Prop :=
  Relation.ReflTransGen fun q q' => ∃ session, q' = (q.nextval session).2

/-- Some session may still draw the id. -/
def Pending (q : Sequence) (i : Int) : Prop :=
  (∃ session next last, q.cached session = some (next, last) ∧ next ≤ i ∧ i ≤ last) ∨
    q.blockStart ≤ i

/-- Blocks of two sessions have no id in common, and every block is below the next one. -/
structure Lawful (q : Sequence) : Prop where
  apart : ∀ s n l s' n' l', q.cached s = some (n, l) → q.cached s' = some (n', l') → s ≠ s' →
    l < n' ∨ l' < n
  reserved : ∀ s n l, q.cached s = some (n, l) → l < q.blockStart

theorem lawful_initial : initial.Lawful where
  apart _ _ _ _ _ _ h := by cases h
  reserved _ _ _ h := by cases h

variable {q q' : Sequence} {session : Session} {i : Int}

theorem cached_of_update {cached : Session → Option (Int × Int)} {next last : Int} {s : Session}
    {n l : Int} (h : Function.update cached session (restOfBlock next last) s = some (n, l)) :
    (s = session ∧ n = next + 1 ∧ l = last ∧ next < last) ∨
      (s ≠ session ∧ cached s = some (n, l)) := by
  by_cases same : s = session
  · subst same
    rw [Function.update_self, restOfBlock] at h
    split at h
    · cases h
      exact .inl ⟨rfl, rfl, rfl, by omega⟩
    · cases h
  · rw [Function.update_of_ne same] at h
    exact .inr ⟨same, h⟩

/-- What one `nextval` does to the ids that can still be drawn. -/
structure Draws (q q' : Sequence) (i : Int) : Prop where
  pending : q.Pending i
  spent : ¬ q'.Pending i
  fewer : ∀ j, q'.Pending j → q.Pending j
  lawful : q'.Lawful

theorem Lawful.nextval (h : q.Lawful) (session : Session) :
    Draws q (q.nextval session).2 (q.nextval session).1 := by
  unfold Sequence.nextval
  split
  · rename_i next last hq
    have block := q.cached_le session next last hq
    have below := h.reserved session next last hq
    refine ⟨.inl ⟨session, next, last, hq, le_rfl, block.1⟩, ?_, ?_, ?_, ?_⟩
    · rintro (⟨s, n, l, cached, lower, upper⟩ | above)
      · obtain ⟨-, rfl, -, -⟩ | ⟨other, old⟩ := cached_of_update cached
        · omega
        · have apart := h.apart s n l session next last old hq other
          omega
      · have same : q.blockStart ≤ next := above
        omega
    · rintro j (⟨s, n, l, cached, lower, upper⟩ | above)
      · obtain ⟨rfl, rfl, rfl, -⟩ | ⟨-, old⟩ := cached_of_update cached
        · exact .inl ⟨s, next, l, hq, by omega, upper⟩
        · exact .inl ⟨s, n, l, old, lower, upper⟩
      · exact .inr above
    · intro s n l s' n' l' cached cached' other
      obtain ⟨rfl, rfl, rfl, -⟩ | ⟨-, old⟩ := cached_of_update cached
      · obtain ⟨rfl, -⟩ | ⟨-, old'⟩ := cached_of_update cached'
        · exact absurd rfl other
        · have apart := h.apart s next l s' n' l' hq old' other
          omega
      · obtain ⟨rfl, rfl, rfl, -⟩ | ⟨-, old'⟩ := cached_of_update cached'
        · have apart := h.apart s n l s' next l' old hq other
          omega
        · exact h.apart s n l s' n' l' old old' other
    · intro s n l cached
      obtain ⟨-, -, rfl, -⟩ | ⟨-, old⟩ := cached_of_update cached
      · exact below
      · exact h.reserved s n l old
  · rename_i hq
    dsimp only
    refine ⟨.inr le_rfl, ?_, ?_, ?_, ?_⟩
    · rintro (⟨s, n, l, cached, lower, upper⟩ | above)
      · obtain ⟨-, rfl, -, -⟩ | ⟨-, old⟩ := cached_of_update cached
        · omega
        · have below := h.reserved s n l old
          omega
      · have start : q.blockStart + (cacheSize - 1) + 1 ≤ q.blockStart := above
        rw [cacheSize] at start
        omega
    · rintro j (⟨s, n, l, cached, lower, upper⟩ | above)
      · obtain ⟨-, rfl, -, -⟩ | ⟨-, old⟩ := cached_of_update cached
        · exact .inr (by omega)
        · exact .inl ⟨s, n, l, old, lower, upper⟩
      · have start : q.blockStart + (cacheSize - 1) + 1 ≤ j := above
        rw [cacheSize] at start
        exact .inr (by omega)
    · intro s n l s' n' l' cached cached' other
      obtain ⟨rfl, rfl, -, -⟩ | ⟨-, old⟩ := cached_of_update cached
      · obtain ⟨rfl, -⟩ | ⟨-, old'⟩ := cached_of_update cached'
        · exact absurd rfl other
        · have below := h.reserved s' n' l' old'
          omega
      · obtain ⟨-, rfl, -, -⟩ | ⟨-, old'⟩ := cached_of_update cached'
        · have below := h.reserved s n l old
          omega
        · exact h.apart s n l s' n' l' old old' other
    · intro s n l cached
      show l < q.blockStart + (cacheSize - 1) + 1
      obtain ⟨-, -, rfl, -⟩ | ⟨-, old⟩ := cached_of_update cached
      · omega
      · have below := h.reserved s n l old
        rw [cacheSize]
        omega

namespace Later

theorem nextval (q : Sequence) (session : Session) : Later q (q.nextval session).2 :=
  .single ⟨session, rfl⟩

theorem stamp {α : Type*} (q : Sequence) (session : Session) (xs : List α) :
    Later q (q.stamp session xs).2 := by
  induction xs generalizing q with
  | nil => exact .refl
  | cons x xs ih => exact .head ⟨session, rfl⟩ (ih (q.nextval session).2)

theorem lastValue_le (h : Later q q') : q.lastValue ≤ q'.lastValue := by
  induction h with
  | refl => exact le_rfl
  | tail _ last ih =>
    obtain ⟨session, rfl⟩ := last
    exact ih.trans (lastValue_le_nextval _ session)

theorem positive (h : Later q q') (start : q.Positive) : q'.Positive := by
  induction h with
  | refl => exact start
  | tail _ last ih =>
    obtain ⟨session, rfl⟩ := last
    exact (ih.nextval session).2

theorem lawful (h : Later q q') (start : q.Lawful) : q'.Lawful := by
  induction h with
  | refl => exact start
  | tail _ last ih =>
    obtain ⟨session, rfl⟩ := last
    exact (ih.nextval session).lawful

theorem pending (h : Later q q') (start : q.Lawful) (later : q'.Pending i) : q.Pending i := by
  induction h with
  | refl => exact later
  | tail before last ih =>
    obtain ⟨session, rfl⟩ := last
    exact ih (((lawful before start).nextval session).fewer i later)

end Later

section Stamp

variable {α : Type*} {xs : List α} {x : α × Int}

/-- The ids of a multi-row insert were pending and are spent. -/
theorem Lawful.stamp (h : q.Lawful) (hx : x ∈ (q.stamp session xs).1) :
    q.Pending x.2 ∧ ¬ (q.stamp session xs).2.Pending x.2 := by
  induction xs generalizing q with
  | nil => cases hx
  | cons y ys ih =>
    have drawn := h.nextval session
    cases List.mem_cons.mp hx with
    | inl first =>
      rw [first]
      refine ⟨drawn.pending, ?_⟩
      intro later
      exact drawn.spent ((Later.stamp _ session ys).pending drawn.lawful later)
    | inr rest =>
      obtain ⟨pending, spent⟩ := ih drawn.lawful rest
      exact ⟨drawn.fewer _ pending, spent⟩

/-- A multi-row insert draws an id of its own for each row. -/
theorem Lawful.nodup_stamp (h : q.Lawful) : ((q.stamp session xs).1.map Prod.snd).Nodup := by
  induction xs generalizing q with
  | nil => exact List.nodup_nil
  | cons y ys ih =>
    have drawn := h.nextval session
    refine List.nodup_cons.mpr ⟨?_, ih drawn.lawful⟩
    intro again
    obtain ⟨x, hx, same⟩ := List.mem_map.mp again
    have pending := (drawn.lawful.stamp hx).1
    rw [same] at pending
    exact drawn.spent pending

end Stamp

end Sequence

namespace Store

open Sequence (Later)

variable {st : Store} {p g : TermId} {session : Session} {q : Quad} {cfg : Config}

@[simp] theorem seq_subtractTripleCount {n : Int} : (st.subtractTripleCount p n).seq = st.seq := by
  rw [subtractTripleCount]
  split <;> rfl

@[simp] theorem seq_addTombstoneCount {n : Int} : (st.addTombstoneCount p n).seq = st.seq := by
  simp only [addTombstoneCount]
  split <;> rfl

theorem later_insertIntoDelta : Later st.seq (insertIntoDelta session q st).2.seq :=
  .nextval st.seq session

theorem later_insertIntoVpRare : Later st.seq (insertIntoVpRare session q st).2.seq := by
  rw [seq_insertIntoVpRare]
  exact .nextval st.seq session

theorem later_insertTriple : Later st.seq (insertTriple cfg session q st).2.seq := by
  rw [insertTriple]
  split
  · exact later_insertIntoDelta
  · dsimp only
    split
    · rw [seq_promotePredicate]
      exact later_insertIntoVpRare
    · exact later_insertIntoVpRare

theorem later_insertEncodedTriple : Later st.seq (insertEncodedTriple session q st).2.seq := by
  rw [insertEncodedTriple]
  split
  · exact later_insertIntoDelta
  · exact later_insertIntoVpRare

theorem later_batchInsertEncoded {keys : List Key} :
    Later st.seq (batchInsertEncoded session p keys st).2.seq := by
  rw [batchInsertEncoded]
  split
  · exact .refl
  · split
    · exact .stamp st.seq session keys
    · exact .stamp st.seq session _

theorem later_deleteFromDedicated : Later st.seq (deleteFromDedicated session q st).2.seq := by
  simp only [deleteFromDedicated]
  split
  · rw [seq_subtractTripleCount]
    exact .refl
  · rw [seq_subtractTripleCount, seq_addTombstoneCount]
    exact .stamp st.seq session [q.key]

theorem later_deleteQuad : Later st.seq (deleteQuad session q st).2.seq := by
  simp only [deleteQuad, deleteFromVpRare, seq_subtractTripleCount]
  split
  · exact later_deleteFromDedicated
  · exact .refl

theorem later_removeGraphRows : Later st.seq (removeGraphRows session g p st).2.2.seq := by
  simp only [removeGraphRows, seq_subtractTripleCount]
  exact .stamp st.seq session _

theorem later_clearGraphIn {acc : Int × Store} :
    Later acc.2.seq (clearGraphIn session g acc p).2.seq := by
  simp only [clearGraphIn]
  split
  · rw [seq_addTombstoneCount]
    exact later_removeGraphRows
  · exact later_removeGraphRows

theorem later_dropGraphIn {acc : Int × Store} :
    Later acc.2.seq (dropGraphIn session g acc p).2.seq := later_removeGraphRows

/-- A loop over the dedicated predicates advances the sequence round by round. -/
theorem later_foldl {step : Int × Store → TermId → Int × Store}
    (round : ∀ acc p, Later acc.2.seq (step acc p).2.seq) (ps : List TermId) (acc : Int × Store) :
    Later acc.2.seq (ps.foldl step acc).2.seq := by
  induction ps generalizing acc with
  | nil => exact .refl
  | cons p ps ih => exact (round acc p).trans (ih (step acc p))

theorem later_clearGraphById : Later st.seq (clearGraphById session g st).2.seq :=
  later_foldl (fun _ _ => later_clearGraphIn) st.dedicatedPredicates (0, st)

theorem later_dropGraph : Later st.seq (dropGraph session g st).2.seq :=
  later_foldl (fun _ _ => later_dropGraphIn) st.dedicatedPredicates (0, st)

/-- Every operation advances the sequence, if it touches it at all. -/
theorem later_apply (op : Op) : Later st.seq (op.apply st).seq := by
  cases op with
  | insertTriple cfg session q => exact later_insertTriple
  | insertEncodedTriple session q => exact later_insertEncodedTriple
  | batchInsertEncoded session p keys => exact later_batchInsertEncoded
  | deleteTriple session q => exact later_deleteQuad
  | deleteTripleByIds session q => exact later_deleteQuad
  | promotePredicate p =>
    rw [Op.apply, seq_promotePredicate]
    exact .refl
  | mergePredicate cfg p =>
    rw [Op.apply, seq_mergePredicate]
    exact .refl
  | clearGraphById session g => exact later_clearGraphById
  | dropGraph session g => exact later_dropGraph

end Store

end PgRipple.Storage
