import PgRipple.Lib.Run
import PgRipple.Storage.Correctness

/-!
# A merge with concurrent writers

`merge_predicate` is taken apart into its statements: it reads the sequence,
builds the new main table on the snapshot of that moment, swaps it in, truncates
`delta` and clears tombstones. Transactions of other sessions commit in between.

Advisory locks are part of the model. From the swap on the merge holds the
exclusive lock `0x50525000 + p`, and `delete_triple` asks for the shared lock `p`
before it writes a tombstone. The two keys never coincide, so the locks exclude
nothing, and correctness depends on what the writers do. `Pending` describes the
visible set that the merge is heading for in each phase. A writer is `Harmless`
in a state if its effect on the tables is the intended effect on the pending set.
-/

namespace PgRipple.Storage

/-- How far the merge has come. The row list is the table `main_new`. -/
inductive Phase where
  | idle
  | started (maxSid : Int)
  | built (maxSid : Int) (mainNew : List Row)
  | swapped (maxSid : Int) (mainNew : List Row)
  | truncated (maxSid : Int) (mainNew : List Row)
  | finished

/-- The store, and a merge of one predicate under way. -/
structure MergeState where
  store : Store
  phase : Phase

/-- What can happen next: a statement of the merge, or a transaction of another
session on the same predicate. -/
inductive Event where
  | merge
  | insert (cfg : Config) (session : Session) (k : Key)
  | delete (session : Session) (k : Key)
  | deleteByIds (session : Session) (k : Key)

/-- `MERGE_FENCE_NAMESPACE`. -/
def mergeFenceNamespace : Int := 0x50525000

/-- `MERGE_FENCE_NAMESPACE.wrapping_add(pred_id)`. -/
def mergeLockKey (p : TermId) : Int := (mergeFenceNamespace + p).bmod (2 ^ 64)

/-- The exclusive advisory locks that the merge transaction holds. -/
def Phase.exclusiveLocks (p : TermId) : Phase → List Int
  | .swapped _ _ | .truncated _ _ => [mergeLockKey p]
  | _ => []

/-- The wrapped key of the fence is never the key that deletes use. -/
theorem mergeLockKey_ne (p : TermId) : mergeLockKey p ≠ p := by
  intro same
  have residue : mergeLockKey p % (2 ^ 64 : Nat) = (mergeFenceNamespace + p) % (2 ^ 64 : Nat) :=
    Int.bmod_emod
  rw [same] at residue
  simp only [mergeFenceNamespace] at residue
  omega

namespace MergeState

/-- The next statement of the merge. `merge_predicate` returns at once for a
predicate without the `htap` mark. -/
def mergeStep (cfg : Config) (p : TermId) (s : MergeState) : Option MergeState :=
  match s.phase with
  | .idle =>
    some { s with
      phase := if s.store.isHtap p then .started s.store.seq.lastValue else .finished }
  | .started maxSid =>
    some { s with phase := .built maxSid ((s.store.tables p).buildMain cfg) }
  | .built maxSid mainNew =>
    some ⟨s.store.setTables p ((s.store.tables p).swapMain mainNew), .swapped maxSid mainNew⟩
  | .swapped maxSid mainNew =>
    some ⟨s.store.setTables p (s.store.tables p).truncateDelta, .truncated maxSid mainNew⟩
  | .truncated maxSid mainNew =>
    some ⟨(s.store.clearTombstones cfg maxSid p).setTripleCount p mainNew.length, .finished⟩
  | .finished => none

/-- `delete_triple` reaches the statement that asks for the shared lock `p`. -/
def asksForLock (p : TermId) (k : Key) (st : Store) : Bool :=
  st.isDedicated p && !decide ((st.tables p).InDelta k)

/-- One event. A delete that has to wait for a lock does not happen now. -/
def step (cfg : Config) (p : TermId) (s : MergeState) : Event → Option MergeState
  | .merge => s.mergeStep cfg p
  | .insert cfg' session k =>
    some { s with store := (Store.insertTriple cfg' session (k.quad p) s.store).2 }
  | .delete session k =>
    if asksForLock p k s.store ∧ p ∈ s.phase.exclusiveLocks p then none
    else some { s with store := (Store.deleteTriple session (k.quad p) s.store).2 }
  | .deleteByIds session k =>
    some { s with store := (Store.deleteTripleByIds session (k.quad p) s.store).2 }

/-- The locks never make a delete wait. -/
theorem step_delete (cfg : Config) (p : TermId) (s : MergeState) (session : Session) (k : Key) :
    s.step cfg p (.delete session k) =
      some { s with store := (Store.deleteTriple session (k.quad p) s.store).2 } := by
  have free : p ∉ s.phase.exclusiveLocks p := by
    unfold Phase.exclusiveLocks
    split
    · simpa using (mergeLockKey_ne p).symm
    · simpa using (mergeLockKey_ne p).symm
    · exact List.not_mem_nil
  simp [step, free]

end MergeState

/-- The visible set after an event, as its session understands it. -/
def Event.apply (visible : Set Key) : Event → Set Key
  | .merge => visible
  | .insert _ _ k => visible ∪ {k}
  | .delete _ k => visible \ {k}
  | .deleteByIds _ k => visible \ {k}

namespace HtapTables

/-- A tombstone of the triple survives the clean-up phase. -/
def Survives (cfg : Config) (maxSid : Int) (t : HtapTables) (k : Key) : Prop :=
  k ∈ (t.survivingTombstones cfg maxSid).map Tombstone.key

instance (cfg : Config) (maxSid : Int) (t : HtapTables) (k : Key) :
    Decidable (t.Survives cfg maxSid k) :=
  inferInstanceAs (Decidable (k ∈ (t.survivingTombstones cfg maxSid).map Tombstone.key))

theorem survives_iff {cfg : Config} {maxSid : Int} {t : HtapTables} {k : Key} :
    t.Survives cfg maxSid k ↔
      cfg.tombstoneRetentionSeconds ≠ 0 ∧ ∃ x ∈ t.tombstones, x.key = k ∧ maxSid < x.i := by
  unfold Survives survivingTombstones
  split
  · rename_i zero
    simp [zero]
  · rename_i nonzero
    simp only [List.mem_map, List.mem_filter, not_le, decide_eq_true_eq]
    constructor
    · intro ⟨x, ⟨hx, newer⟩, same⟩
      exact ⟨nonzero, x, hx, same, newer⟩
    · intro ⟨_, x, hx, same, newer⟩
      exact ⟨x, ⟨hx, newer⟩, same⟩

theorem Survives.inTombstones {cfg : Config} {maxSid : Int} {t : HtapTables} {k : Key}
    (h : t.Survives cfg maxSid k) : t.InTombstones k := by
  obtain ⟨_, x, hx, same, _⟩ := survives_iff.mp h
  exact List.mem_map.mpr ⟨x, hx, same⟩

/-- After the clean-up the skip form is installed only over an empty table. -/
theorem clean_clearTombstones {cfg : Config} {maxSid : Int} {t : HtapTables}
    (aware : t.view = .tombstoneAware) :
    (t.clearTombstones cfg maxSid).view = .tombstoneSkip →
      (t.clearTombstones cfg maxSid).tombstones = [] := by
  intro skip
  simp only [clearTombstones] at skip ⊢
  split at skip
  · rename_i empty
    exact List.isEmpty_iff.mp empty
  · rw [aware] at skip
    cases skip

/-- The view after the clean-up hides the triples whose tombstone survived. -/
theorem shows_clearTombstones {cfg : Config} {maxSid : Int} {t : HtapTables} {k : Key}
    (aware : t.view = .tombstoneAware) :
    (t.clearTombstones cfg maxSid).Shows k ↔
      (t.InMain k ∧ ¬ t.Survives cfg maxSid k) ∨ t.InDelta k := by
  rw [shows_iff_of_clean (clean_clearTombstones aware)]
  exact Iff.rfl

end HtapTables

/-- What the view will show when the merge is through, if no further writer comes. -/
def Phase.Pending (cfg : Config) (t : HtapTables) : Phase → Set Key
  | .idle | .finished => {k | t.Shows k}
  | .started maxSid =>
    {k | (t.InMain k ∧ ¬ t.InTombstones k) ∨ (t.InDelta k ∧ ¬ t.Survives cfg maxSid k)}
  | .built maxSid mainNew | .swapped maxSid mainNew =>
    {k | k ∈ mainNew.map Row.key ∧ ¬ t.Survives cfg maxSid k}
  | .truncated maxSid mainNew =>
    {k | (k ∈ mainNew.map Row.key ∧ ¬ t.Survives cfg maxSid k) ∨ t.InDelta k}

/-- An insert that the merge will not lose: before the build it must not meet a
tombstone that outlives the merge, and between build and truncation only triples
that the new main table already holds are safe. -/
def Phase.InsertHarmless (cfg : Config) (t : HtapTables) (k : Key) : Phase → Prop
  | .started maxSid => ¬ t.Survives cfg maxSid k
  | .built maxSid mainNew | .swapped maxSid mainNew =>
    k ∈ mainNew.map Row.key ∧ ¬ t.Survives cfg maxSid k
  | .idle | .truncated _ _ | .finished => True

/-- A delete that the merge will not undo: before the build the triple must not be
visible in `delta` and `main` at once; after it, a triple that is pending in the
new main table needs a tombstone that outlives the merge. -/
def Phase.DeleteHarmless (cfg : Config) (t : HtapTables) (k : Key) (nextId : Int) : Phase → Prop
  | .idle | .started _ | .finished => ¬ (t.InDelta k ∧ t.InMain k ∧ ¬ t.InTombstones k)
  | .built maxSid mainNew | .swapped maxSid mainNew | .truncated maxSid mainNew =>
    k ∈ mainNew.map Row.key → ¬ t.Survives cfg maxSid k →
      ¬ t.InDelta k ∧ cfg.tombstoneRetentionSeconds ≠ 0 ∧ maxSid < nextId

instance (cfg : Config) (t : HtapTables) (k : Key) :
    (phase : Phase) → Decidable (phase.InsertHarmless cfg t k)
  | .started maxSid => inferInstanceAs (Decidable (¬ t.Survives cfg maxSid k))
  | .built maxSid mainNew | .swapped maxSid mainNew =>
    inferInstanceAs (Decidable (k ∈ mainNew.map Row.key ∧ ¬ t.Survives cfg maxSid k))
  | .idle | .truncated _ _ | .finished => .isTrue trivial

instance (cfg : Config) (t : HtapTables) (k : Key) (nextId : Int) :
    (phase : Phase) → Decidable (phase.DeleteHarmless cfg t k nextId)
  | .idle | .started _ | .finished =>
    inferInstanceAs (Decidable (¬ (t.InDelta k ∧ t.InMain k ∧ ¬ t.InTombstones k)))
  | .built maxSid mainNew | .swapped maxSid mainNew | .truncated maxSid mainNew =>
    inferInstanceAs (Decidable (k ∈ mainNew.map Row.key → ¬ t.Survives cfg maxSid k →
      ¬ t.InDelta k ∧ cfg.tombstoneRetentionSeconds ≠ 0 ∧ maxSid < nextId))

/-- The event does to the pending set what its session intends. -/
def MergeState.Harmless (cfg : Config) (p : TermId) (s : MergeState) : Event → Prop
  | .merge => True
  | .insert _ _ k => s.phase.InsertHarmless cfg (s.store.tables p) k
  | .delete session k | .deleteByIds session k =>
    s.phase.DeleteHarmless cfg (s.store.tables p) k (s.store.seq.nextval session).1

instance (cfg : Config) (p : TermId) (s : MergeState) : (e : Event) → Decidable (s.Harmless cfg p e)
  | .merge => .isTrue trivial
  | .insert _ _ k =>
    inferInstanceAs (Decidable (s.phase.InsertHarmless cfg (s.store.tables p) k))
  | .delete session k | .deleteByIds session k =>
    inferInstanceAs (Decidable (s.phase.DeleteHarmless cfg (s.store.tables p) k
      (s.store.seq.nextval session).1))

section Writers

variable {cfg : Config} {t t' : HtapTables} {k : Key} {nextId : Int}

/-- A write to `delta` is no matter for surviving tombstones. -/
theorem survives_congr (tombstones : t'.tombstones = t.tombstones) {maxSid : Int} {k' : Key} :
    t'.Survives cfg maxSid k' ↔ t.Survives cfg maxSid k' := by
  rw [HtapTables.survives_iff, HtapTables.survives_iff, tombstones]

theorem inMain_congr (main : t'.main = t.main) {k' : Key} : t'.InMain k' ↔ t.InMain k' := by
  unfold HtapTables.InMain
  rw [main]

theorem inTombstones_congr (tombstones : t'.tombstones = t.tombstones) {k' : Key} :
    t'.InTombstones k' ↔ t.InTombstones k' := by
  unfold HtapTables.InTombstones
  rw [tombstones]

/-- A harmless insert adds its triple to the pending set. -/
theorem Phase.pending_insert (phase : Phase) (main : t'.main = t.main)
    (tombstones : t'.tombstones = t.tombstones) (view : t'.view = t.view)
    (inDelta : ∀ k', t'.InDelta k' ↔ t.InDelta k' ∨ k' = k)
    (harmless : phase.InsertHarmless cfg t k) :
    phase.Pending cfg t' = phase.Pending cfg t ∪ {k} := by
  have shows (k' : Key) : t'.Shows k' ↔ t.Shows k' ∨ k' = k := by
    rw [HtapTables.shows_iff, HtapTables.shows_iff, HtapTables.MainVisible,
      HtapTables.MainVisible, inMain_congr main, inTombstones_congr tombstones, view, inDelta,
      or_assoc]
  ext k'
  rw [Set.mem_union, Set.mem_singleton_iff]
  cases phase with
  | idle => exact shows k'
  | finished => exact shows k'
  | started maxSid =>
    change (_ ∧ _) ∨ (_ ∧ _) ↔ ((_ ∧ _) ∨ (_ ∧ _)) ∨ _
    rw [inMain_congr main, inTombstones_congr tombstones, survives_congr tombstones, inDelta]
    by_cases same : k' = k
    · have safe : ¬ t.Survives cfg maxSid k := harmless
      simp [same, safe]
    · simp [same]
  | built maxSid mainNew =>
    change _ ∧ _ ↔ (_ ∧ _) ∨ _
    rw [survives_congr tombstones]
    exact (or_iff_left_of_imp fun same => same ▸ harmless).symm
  | swapped maxSid mainNew =>
    change _ ∧ _ ↔ (_ ∧ _) ∨ _
    rw [survives_congr tombstones]
    exact (or_iff_left_of_imp fun same => same ▸ harmless).symm
  | truncated maxSid mainNew =>
    change (_ ∧ _) ∨ _ ↔ ((_ ∧ _) ∨ _) ∨ _
    rw [survives_congr tombstones, inDelta, or_assoc]

/-- A harmless delete that takes the delta branch removes its triple from the
pending set. -/
theorem Phase.pending_delete_of_inDelta (phase : Phase) (main : t'.main = t.main)
    (tombstones : t'.tombstones = t.tombstones) (view : t'.view = t.view)
    (clean : t.view = .tombstoneSkip → t.tombstones = []) (present : t.InDelta k)
    (inDelta : ∀ k', t'.InDelta k' ↔ t.InDelta k' ∧ k' ≠ k)
    (harmless : phase.DeleteHarmless cfg t k nextId) :
    phase.Pending cfg t' = phase.Pending cfg t \ {k} := by
  have live : ∀ hidden : ¬ (t.InMain k ∧ ¬ t.InTombstones k), ∀ k',
      t.InMain k' ∧ ¬ t.InTombstones k' ↔ (t.InMain k' ∧ ¬ t.InTombstones k') ∧ k' ≠ k := by
    intro hidden k'
    refine (and_iff_left_of_imp ?_).symm
    intro shown same
    exact hidden (same ▸ shown)
  have shows (hidden : ¬ (t.InMain k ∧ ¬ t.InTombstones k)) (k' : Key) :
      t'.Shows k' ↔ t.Shows k' ∧ k' ≠ k := by
    have clean' : t'.view = .tombstoneSkip → t'.tombstones = [] := by
      rw [view, tombstones]
      exact clean
    rw [HtapTables.shows_iff_of_clean clean, HtapTables.shows_iff_of_clean clean',
      inMain_congr main, inTombstones_congr tombstones, inDelta, or_and_right]
    exact or_congr (live hidden k') Iff.rfl
  have early (harmless : ¬ (t.InDelta k ∧ t.InMain k ∧ ¬ t.InTombstones k)) :
      ¬ (t.InMain k ∧ ¬ t.InTombstones k) := fun shown => harmless ⟨present, shown⟩
  have late {maxSid : Int} {mainNew : List Row}
      (harmless : k ∈ mainNew.map Row.key → ¬ t.Survives cfg maxSid k →
        ¬ t.InDelta k ∧ cfg.tombstoneRetentionSeconds ≠ 0 ∧ maxSid < nextId) (k' : Key) :
      k' ∈ mainNew.map Row.key ∧ ¬ t.Survives cfg maxSid k' ↔
        (k' ∈ mainNew.map Row.key ∧ ¬ t.Survives cfg maxSid k') ∧ k' ≠ k := by
    refine (and_iff_left_of_imp ?_).symm
    intro shown same
    rw [same] at shown
    exact (harmless shown.1 shown.2).1 present
  ext k'
  rw [Set.mem_sdiff, Set.mem_singleton_iff]
  cases phase with
  | idle => exact shows (early harmless) k'
  | finished => exact shows (early harmless) k'
  | started maxSid =>
    change (_ ∧ _) ∨ (_ ∧ _) ↔ ((_ ∧ _) ∨ (_ ∧ _)) ∧ _
    rw [inMain_congr main, inTombstones_congr tombstones, survives_congr tombstones, inDelta,
      or_and_right]
    exact or_congr (live (early harmless) k') and_right_comm
  | built maxSid mainNew =>
    change _ ∧ _ ↔ (_ ∧ _) ∧ _
    rw [survives_congr tombstones]
    exact late harmless k'
  | swapped maxSid mainNew =>
    change _ ∧ _ ↔ (_ ∧ _) ∧ _
    rw [survives_congr tombstones]
    exact late harmless k'
  | truncated maxSid mainNew =>
    change (_ ∧ _) ∨ _ ↔ ((_ ∧ _) ∨ _) ∧ _
    rw [survives_congr tombstones, inDelta, or_and_right]
    exact or_congr (late harmless k') Iff.rfl

/-- A harmless delete that writes a tombstone removes its triple from the pending
set. -/
theorem Phase.pending_delete_of_tombstone (phase : Phase) (main : t'.main = t.main)
    (tombstones : t'.tombstones = t.tombstones ++ [⟨k, nextId⟩])
    (view : t'.view = .tombstoneAware)
    (clean : t.view = .tombstoneSkip → t.tombstones = []) (absent : ¬ t.InDelta k)
    (delta : t'.delta = t.delta) (harmless : phase.DeleteHarmless cfg t k nextId) :
    phase.Pending cfg t' = phase.Pending cfg t \ {k} := by
  have inDelta (k' : Key) : t'.InDelta k' ↔ t.InDelta k' ∧ k' ≠ k := by
    have same : t'.InDelta k' ↔ t.InDelta k' := by
      unfold HtapTables.InDelta
      rw [delta]
    rw [same]
    refine (and_iff_left_of_imp ?_).symm
    intro shown same
    exact absent (same ▸ shown)
  have inTombstones (k' : Key) : t'.InTombstones k' ↔ t.InTombstones k' ∨ k' = k := by
    simp [HtapTables.InTombstones, tombstones, eq_comm]
  have survives (maxSid : Int) (k' : Key) : t'.Survives cfg maxSid k' ↔
      t.Survives cfg maxSid k' ∨
        (k' = k ∧ cfg.tombstoneRetentionSeconds ≠ 0 ∧ maxSid < nextId) := by
    rw [HtapTables.survives_iff, HtapTables.survives_iff, tombstones]
    simp only [List.mem_append, List.mem_singleton]
    constructor
    · rintro ⟨nonzero, x, hx, same, newer⟩
      cases hx with
      | inl old => exact .inl ⟨nonzero, x, old, same, newer⟩
      | inr added =>
        subst added
        exact .inr ⟨same.symm, nonzero, newer⟩
    · intro h
      cases h with
      | inl old =>
        obtain ⟨nonzero, x, hx, same, newer⟩ := old
        exact ⟨nonzero, x, .inl hx, same, newer⟩
      | inr added => exact ⟨added.2.1, ⟨k, nextId⟩, .inr rfl, added.1.symm, added.2.2⟩
  have live (k' : Key) : t'.InMain k' ∧ ¬ t'.InTombstones k' ↔
      (t.InMain k' ∧ ¬ t.InTombstones k') ∧ k' ≠ k := by
    rw [inMain_congr main, inTombstones, not_or, and_assoc]
  have shows (k' : Key) : t'.Shows k' ↔ t.Shows k' ∧ k' ≠ k := by
    rw [HtapTables.shows_iff_of_clean clean, HtapTables.shows_iff_of_clean (by simp [view]),
      live, inDelta, or_and_right]
  have late {maxSid : Int} {mainNew : List Row}
      (harmless : k ∈ mainNew.map Row.key → ¬ t.Survives cfg maxSid k →
        ¬ t.InDelta k ∧ cfg.tombstoneRetentionSeconds ≠ 0 ∧ maxSid < nextId) (k' : Key) :
      k' ∈ mainNew.map Row.key ∧ ¬ t'.Survives cfg maxSid k' ↔
        (k' ∈ mainNew.map Row.key ∧ ¬ t.Survives cfg maxSid k') ∧ k' ≠ k := by
    rw [survives, not_or, and_assoc]
    refine and_congr_right fun inNew => and_congr_right fun gone => ?_
    constructor
    · intro fresh same
      subst same
      exact fresh ⟨rfl, (harmless inNew gone).2⟩
    · intro other both
      exact other both.1
  ext k'
  rw [Set.mem_sdiff, Set.mem_singleton_iff]
  cases phase with
  | idle => exact shows k'
  | finished => exact shows k'
  | started maxSid =>
    change (_ ∧ _) ∨ (_ ∧ _) ↔ ((_ ∧ _) ∨ (_ ∧ _)) ∧ _
    rw [live, inDelta, survives, or_and_right]
    refine or_congr Iff.rfl ?_
    rw [and_right_comm]
    refine and_congr_left fun other => and_congr_right fun _ => ?_
    simp [other]
  | built maxSid mainNew => exact late harmless k'
  | swapped maxSid mainNew => exact late harmless k'
  | truncated maxSid mainNew =>
    change (_ ∧ _) ∨ _ ↔ ((_ ∧ _) ∨ _) ∧ _
    rw [inDelta, or_and_right]
    exact or_congr (late harmless k') Iff.rfl

end Writers

/-- From the swap on the view is tombstone-aware and reads the new main table. -/
def Phase.Fits (t : HtapTables) : Phase → Prop
  | .swapped _ mainNew | .truncated _ mainNew => t.view = .tombstoneAware ∧ t.main = mainNew
  | _ => True

/-- The state of a merge whose pending visible set is `visible`. -/
structure MergeState.Heading (cfg : Config) (p : TermId) (s : MergeState) (visible : Set Key) :
    Prop where
  used : s.store.DedicatedAt p
  clean : (s.store.tables p).view = .tombstoneSkip → (s.store.tables p).tombstones = []
  fits : s.phase.Fits (s.store.tables p)
  pending : s.phase.Pending cfg (s.store.tables p) = visible

namespace MergeState

variable {cfg : Config} {p : TermId} {s s' : MergeState} {visible : Set Key}

/-- Every statement of the merge keeps its course. -/
theorem Heading.mergeStep (h : s.Heading cfg p visible) (stepped : s.mergeStep cfg p = some s') :
    s'.Heading cfg p visible := by
  obtain ⟨st, phase⟩ := s
  obtain ⟨used, clean, fits, pending⟩ := h
  cases phase with
  | idle =>
    simp only [MergeState.mergeStep, used.htap, if_true, Option.some.injEq] at stepped
    subst stepped
    refine ⟨used, clean, trivial, ?_⟩
    -- nothing survives yet: all tombstone ids are covered by `last_value`
    rw [← pending]
    ext k
    change (_ ∨ _) ↔ (st.tables p).Shows k
    rw [HtapTables.shows_iff_of_clean clean]
    simp [HtapTables.Survives, used.survivingTombstones cfg]
  | started maxSid =>
    simp only [MergeState.mergeStep, Option.some.injEq] at stepped
    subst stepped
    refine ⟨used, clean, trivial, ?_⟩
    rw [← pending]
    ext k
    change k ∈ ((st.tables p).buildMain cfg).map Row.key ∧ ¬ _ ↔ (_ ∨ _)
    rw [HtapTables.mem_map_buildMain, or_and_right]
    refine or_congr (and_iff_left_of_imp ?_) Iff.rfl
    intro shown survives
    exact shown.2 survives.inTombstones
  | built maxSid mainNew =>
    simp only [MergeState.mergeStep, Option.some.injEq] at stepped
    subst stepped
    refine ⟨?_, ?_, ?_, ?_⟩
    · refine used.setTables ?_ fun _ hx => hx
      intro view
      cases view
    · intro view
      simp [HtapTables.swapMain] at view
    · simp [Phase.Fits, HtapTables.swapMain]
    · rw [← pending, Store.setTables_tables_self]
      rfl
  | swapped maxSid mainNew =>
    simp only [MergeState.mergeStep, Option.some.injEq] at stepped
    subst stepped
    refine ⟨used.setDelta _, ?_, ?_, ?_⟩
    · rw [Store.setTables_tables_self]
      exact clean
    · simpa [Phase.Fits, HtapTables.truncateDelta] using fits
    · rw [← pending, Store.setTables_tables_self]
      ext k
      change (_ ∨ _) ↔ _
      simp only [HtapTables.truncateDelta, HtapTables.InDelta, UniqueTable.not_hasKey_empty,
        or_false]
      exact Iff.rfl
  | truncated maxSid mainNew =>
    simp only [MergeState.mergeStep, Option.some.injEq] at stepped
    subst stepped
    have tables : ((st.clearTombstones cfg maxSid p).setTripleCount p mainNew.length).tables p =
        (st.tables p).clearTombstones cfg maxSid := Store.tables_clearTombstones cfg maxSid p st
    refine ⟨(used.clearTombstones fits.1).setTripleCount, ?_, trivial, ?_⟩
    · rw [tables]
      exact HtapTables.clean_clearTombstones fits.1
    · rw [← pending, tables]
      ext k
      change HtapTables.Shows _ k ↔ (k ∈ mainNew.map Row.key ∧ _) ∨ _
      rw [HtapTables.shows_clearTombstones fits.1, ← fits.2]
      exact Iff.rfl
  | finished =>
    simp [MergeState.mergeStep] at stepped

/-- A harmless insert keeps the merge on course for the set with its triple. -/
theorem Heading.insert (h : s.Heading cfg p visible) (cfg' : Config) (session : Session) (k : Key)
    (harmless : s.phase.InsertHarmless cfg (s.store.tables p) k) :
    MergeState.Heading cfg p
      { s with store := (Store.insertTriple cfg' session (k.quad p) s.store).2 }
      (visible ∪ {k}) := by
  have routed : Store.insertTriple cfg' session (k.quad p) s.store =
      Store.insertIntoDelta session (k.quad p) s.store := by
    simp [Store.insertTriple, h.used.dedicated]
  have tables := Store.tables_insertIntoDelta session (k.quad p) s.store
  simp only [Key.quad_p, Key.quad_key] at tables
  rw [routed]
  refine ⟨h.used.insertIntoDelta (q := k.quad p), ?_, ?_, ?_⟩
  · rw [tables]
    exact h.clean
  · rw [tables]
    exact h.fits
  · rw [← h.pending]
    refine s.phase.pending_insert ?_ ?_ ?_ ?_ harmless
    · rw [tables]
    · rw [tables]
    · rw [tables]
    · intro k'
      rw [tables]
      simp [HtapTables.InDelta]

/-- A harmless delete keeps the merge on course for the set without its triple. -/
theorem Heading.delete (h : s.Heading cfg p visible) (session : Session) (k : Key)
    (harmless : s.phase.DeleteHarmless cfg (s.store.tables p) k
      (s.store.seq.nextval session).1) :
    MergeState.Heading cfg p
      { s with store := (Store.deleteQuad session (k.quad p) s.store).2 } (visible \ {k}) := by
  have used : s.store.DedicatedAt (k.quad p).p := h.used
  have routed : (Store.deleteQuad session (k.quad p) s.store).2.tables =
      (Store.deleteFromDedicated session (k.quad p) s.store).2.tables :=
    Store.tables_deleteQuad_of_dedicated used.dedicated
  by_cases present : (s.store.tables p).InDelta k
  · have tables : (Store.deleteQuad session (k.quad p) s.store).2.tables p = _ :=
      (congrFun routed p).trans
        (Store.tables_deleteFromDedicated_of_inDelta (q := k.quad p) present)
    have deleted (k' : Key) : ((s.store.tables p).delta.deleteWhere fun r => r.key = k).HasKey k' ↔
        (s.store.tables p).delta.HasKey k' ∧ decide (k' = k) = false :=
      UniqueTable.hasKey_deleteWhere fun x => decide (x = k)
    refine ⟨used.deleteQuad, ?_, ?_, ?_⟩
    · rw [tables]
      exact h.clean
    · rw [tables]
      exact h.fits
    · rw [← h.pending]
      refine s.phase.pending_delete_of_inDelta ?_ ?_ ?_ h.clean present ?_ harmless
      · rw [tables]; rfl
      · rw [tables]; rfl
      · rw [tables]; rfl
      · intro k'
        rw [tables]
        refine (deleted k').trans ?_
        simp [HtapTables.InDelta]
  · have tables : (Store.deleteQuad session (k.quad p) s.store).2.tables p = _ :=
      (congrFun routed p).trans (used.tables_deleteFromDedicated present)
    simp only [Key.quad_p, Store.tables_insertTombstones] at tables
    refine ⟨used.deleteQuad, ?_, ?_, ?_⟩
    · rw [tables]
      intro view
      cases view
    · have fits := h.fits
      rw [tables]
      revert fits
      cases s.phase with
      | swapped maxSid mainNew => exact fun fits => ⟨rfl, fits.2⟩
      | truncated maxSid mainNew => exact fun fits => ⟨rfl, fits.2⟩
      | _ => exact fun _ => trivial
    · rw [← h.pending]
      refine s.phase.pending_delete_of_tombstone ?_ ?_ ?_ h.clean present ?_ harmless
      · rw [tables]
      · rw [tables]; rfl
      · rw [tables]
      · rw [tables]

theorem Heading.step (h : s.Heading cfg p visible) {e : Event} (harmless : s.Harmless cfg p e)
    (stepped : s.step cfg p e = some s') : s'.Heading cfg p (e.apply visible) := by
  cases e with
  | merge => exact h.mergeStep stepped
  | insert cfg' session k =>
    simp only [MergeState.step, Option.some.injEq] at stepped
    subst stepped
    exact h.insert cfg' session k harmless
  | delete session k =>
    rw [step_delete, Option.some.injEq] at stepped
    subst stepped
    exact h.delete session k harmless
  | deleteByIds session k =>
    simp only [MergeState.step, Option.some.injEq] at stepped
    subst stepped
    exact h.delete session k harmless

end MergeState

/-- Start from any state that a run without `drop_graph` reaches, with a merge of a
dedicated predicate about to begin. In every interleaving whose writers are all
harmless, the finished merge shows the triples visible before with the committed
inserts and deletes applied in commit order. -/
theorem merge_interleaved_correct {st : Store} (reachable : st.Reachable Op.NotDrop)
    (cfg : Config) (p : TermId) (dedicated : st.isDedicated p = true) (events : List Event)
    (s : MergeState)
    (harmless : Run.Along (MergeState.step cfg p) (MergeState.Harmless cfg p) ⟨st, .idle⟩ events)
    (executed : Run.exec (MergeState.step cfg p) ⟨st, .idle⟩ events = some s)
    (finished : s.phase = .finished) :
    {k | (s.store.tables p).Shows k} = events.foldl Event.apply {k | (st.tables p).Shows k} := by
  have inv := reachable.inv
  have start : MergeState.Heading cfg p ⟨st, .idle⟩ {k | (st.tables p).Shows k} :=
    ⟨inv.toLayout.dedicatedAt dedicated, inv.clean p, trivial, rfl⟩
  have keeps : ∀ (s : MergeState) (visible : Set Key) (e : Event) (s' : MergeState),
      s.Heading cfg p visible → s.Harmless cfg p e → s.step cfg p e = some s' →
        s'.Heading cfg p (e.apply visible) :=
    fun _ _ _ _ heading guarded stepped => heading.step guarded stepped
  have heading := Run.exec_simulates keeps start harmless executed
  have pending := heading.pending
  rwa [finished] at pending

/-- A delete that commits between the build and the swap. -/
def deleteDuringMerge : List Event :=
  [.merge, .merge, .delete 1 ⟨1, 3, 0⟩, .merge, .merge, .merge]

/-- With retention on, a delete of a main row during the merge writes a tombstone
that survives it, and the triple stays deleted. -/
theorem merge_interleaved_deleteDuringMerge :
    ∃ s, Run.exec (MergeState.step ⟨10000, false, 3600⟩ 2)
        ⟨Store.run (Store.mergedOnce ⟨1, 2, 3, 0⟩) .initial, .idle⟩ deleteDuringMerge = some s ∧
      {k | (s.store.tables 2).Shows k} = deleteDuringMerge.foldl Event.apply
        {k | ((Store.run (Store.mergedOnce ⟨1, 2, 3, 0⟩) .initial).tables 2).Shows k} := by
  have reachable : (Store.run (Store.mergedOnce ⟨1, 2, 3, 0⟩) .initial).Reachable Op.NotDrop :=
    ⟨_, by simp [Store.mergedOnce, Op.NotDrop], rfl⟩
  refine ⟨_, rfl, ?_⟩
  exact merge_interleaved_correct reachable ⟨10000, false, 3600⟩ 2 (by decide)
    deleteDuringMerge _ (by decide) rfl rfl

/-- An insert that commits between the build and the truncation of `delta`. -/
def insertDuringMerge : List Event :=
  [.merge, .merge, .insert ⟨10000, false, 0⟩ 1 ⟨5, 6, 0⟩, .merge, .merge, .merge]

/-- That insert is lost: the new main table was built before it, and the truncation
of `delta` comes after it. -/
theorem not_merge_interleaved_correct :
    ¬ ∀ (st : Store), st.Reachable Op.NotDrop → ∀ (cfg : Config) (p : TermId),
      st.isDedicated p = true → ∀ (events : List Event) (s : MergeState),
        Run.exec (MergeState.step cfg p) ⟨st, .idle⟩ events = some s → s.phase = .finished →
          {k | (s.store.tables p).Shows k} =
            events.foldl Event.apply {k | (st.tables p).Shows k} := by
  intro promised
  have reachable : (Store.run (Store.mergedOnce ⟨1, 2, 3, 0⟩) .initial).Reachable Op.NotDrop :=
    ⟨_, by simp [Store.mergedOnce, Op.NotDrop], rfl⟩
  have equal := promised _ reachable ⟨10000, false, 0⟩ 2 (by decide) insertDuringMerge _
    rfl rfl
  have intended : (⟨5, 6, 0⟩ : Key) ∈ insertDuringMerge.foldl Event.apply
      {k | ((Store.run (Store.mergedOnce ⟨1, 2, 3, 0⟩) .initial).tables 2).Shows k} := .inr rfl
  rw [← equal] at intended
  revert intended
  change ¬ HtapTables.Shows _ _
  decide

end PgRipple.Storage
