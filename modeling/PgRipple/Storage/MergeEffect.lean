import PgRipple.Storage.Invariant

/-!
# What a merge does

Without concurrent writers every tombstone id is at most the `last_value` the
merge reads, so whatever the retention setting the clean-up removes all of them
and the view ends in its skip form over the freshly built main table.

The statement ids shown do not change either. Before the merge the view reduces
the merged rows to the least id per triple; after it the view reduces the new
main table, which holds either the same rows or their reduction.
-/

namespace PgRipple.Storage

/-- Reducing twice is reducing once. -/
theorem isLeast_setOf_isLeast {ι : Type*} [LinearOrder ι] {s : Set ι} {i : ι} :
    IsLeast {j | IsLeast s j} i ↔ IsLeast s i := by
  constructor
  · intro h
    exact h.1
  · intro h
    exact ⟨h, fun j hj => h.2 hj.1⟩

namespace HtapTables

variable {cfg : Config} {t : HtapTables}

theorem mem_map_buildMain {k : Key} :
    k ∈ (t.buildMain cfg).map Row.key ↔ (t.InMain k ∧ ¬ t.InTombstones k) ∨ t.InDelta k := by
  have merged : k ∈ (t.mainMinusTombstones ++ t.delta.rows).map Row.key ↔
      (t.InMain k ∧ ¬ t.InTombstones k) ∨ t.InDelta k := by
    rw [List.map_append, List.mem_append, mem_map_mainMinusTombstones]
    exact Iff.rfl
  unfold buildMain
  split
  · exact DistinctOn.mem_map_key_distinctOn.trans merged
  · exact merged

/-- With or without `dedup_on_merge`, the new main table shows the same ids. -/
theorem isLeast_ranks_buildMain {k : Key} {i : Int} :
    IsLeast (DistinctOn.Ranks Row.key Row.i (t.buildMain cfg) k) i ↔
      IsLeast (DistinctOn.Ranks Row.key Row.i (t.mainMinusTombstones ++ t.delta.rows) k) i := by
  unfold buildMain
  split
  · rw [DistinctOn.ranks_distinctOn]
    exact isLeast_setOf_isLeast
  · exact Iff.rfl

/-- The tables after an undisturbed merge. -/
def merged (cfg : Config) (t : HtapTables) : HtapTables where
  delta := UniqueTable.empty Row.key
  main := t.buildMain cfg
  tombstones := []
  view := .tombstoneSkip

theorem shows_merged (clean : t.view = .tombstoneSkip → t.tombstones = []) {k : Key} :
    (t.merged cfg).Shows k ↔ t.Shows k := by
  have built : k ∈ (t.buildMain cfg).map Row.key ↔ _ := mem_map_buildMain
  rw [shows_iff_of_clean clean, ← built, shows_iff_of_clean fun _ => rfl]
  simp [merged, InMain, InTombstones, InDelta]

/-- After a merge the view shows the least id of the rows that the merge found. -/
theorem showsAs_merged_iff {k : Key} {i : Int} : (t.merged cfg).ShowsAs k i ↔
    IsLeast (DistinctOn.Ranks Row.key Row.i (t.mainMinusTombstones ++ t.delta.rows) k) i := by
  have after : (t.merged cfg).viewMain ++ (t.merged cfg).delta.rows = t.buildMain cfg := by
    simp [merged, viewMain]
  rw [showsAs_iff, after]
  exact isLeast_ranks_buildMain

theorem showsAs_merged (clean : t.view = .tombstoneSkip → t.tombstones = []) {k : Key} {i : Int} :
    (t.merged cfg).ShowsAs k i ↔ t.ShowsAs k i := by
  rw [showsAs_merged_iff, showsAs_iff, viewMain_of_clean clean]

end HtapTables

namespace Store

variable {st : Store} {p : TermId} {cfg : Config}

theorem tables_clearTombstones (cfg : Config) (maxSid : Int) (p : TermId) (st : Store) :
    (clearTombstones cfg maxSid p st).tables p = (st.tables p).clearTombstones cfg maxSid := by
  simp only [clearTombstones]
  split <;> simp

theorem DedicatedAt.survivingTombstones (h : st.DedicatedAt p) (cfg : Config) :
    (st.tables p).survivingTombstones cfg st.seq.lastValue = [] := by
  unfold HtapTables.survivingTombstones
  split
  · rfl
  · rw [List.filter_eq_nil_iff]
    intro x hx
    simpa using h.tombstones_le x hx

/-- A merge that nobody disturbs builds the new main table and leaves the other
two empty. -/
theorem DedicatedAt.tables_mergePredicate (h : st.DedicatedAt p) :
    (Store.mergePredicate cfg p st).2.tables p = (st.tables p).merged cfg := by
  have left : HtapTables.survivingTombstones cfg st.seq.lastValue
      ((st.tables p).swapMain ((st.tables p).buildMain cfg)).truncateDelta = [] :=
    h.survivingTombstones cfg
  simp only [Store.mergePredicate, h.htap, if_true, Store.setTripleCount, updatePredicate_tables,
    tables_clearTombstones, setTables_tables_self, HtapTables.clearTombstones, left]
  rfl

theorem DedicatedAt.mergePredicate (h : st.DedicatedAt p) :
    (Store.mergePredicate cfg p st).2.DedicatedAt p := by
  have swapped : (st.setTables p
      ((st.tables p).swapMain ((st.tables p).buildMain cfg))).DedicatedAt p := by
    refine h.setTables ?_ fun _ hx => hx
    intro view
    cases view
  have truncated := swapped.setDelta (UniqueTable.empty Row.key)
  have cleared : (Store.clearTombstones cfg st.seq.lastValue p _).DedicatedAt p :=
    truncated.clearTombstones (by simp [HtapTables.swapMain])
  simp only [Store.mergePredicate, h.htap, if_true]
  exact cleared.setTripleCount

theorem rare_mergePredicate : (mergePredicate cfg p st).2.rare = st.rare := by
  unfold mergePredicate
  split
  · simp only [setTripleCount, clearTombstones]
    split <;> rfl
  · rfl

theorem UnusedAt.mergePredicate_eq (h : st.UnusedAt p) : (mergePredicate cfg p st).2 = st := by
  simp [Store.mergePredicate, h.htap]

theorem Layout.mergePredicate (h : st.Layout) : (mergePredicate cfg p st).2.Layout := by
  cases h.predicate p with
  | inl used =>
    refine h.of_dedicatedAt onlyAt_mergePredicate used.dedicated used.mergePredicate ?_
    intro q hq
    rwa [rare_mergePredicate] at hq
  | inr unused =>
    rw [unused.mergePredicate_eq]
    exact h

theorem Inv.mergePredicate (h : st.Inv) : (mergePredicate cfg p st).2.Inv := by
  refine h.of_onlyAt onlyAt_mergePredicate h.toLayout.mergePredicate ?_
  cases h.predicate p with
  | inl used =>
    rw [used.tables_mergePredicate]
    intro _
    rfl
  | inr unused =>
    rw [unused.mergePredicate_eq]
    exact h.clean p

end Store

end PgRipple.Storage
