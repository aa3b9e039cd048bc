import PgRipple.Storage.Invariant

/-!
# Deleting

A delete takes one of two branches on a dedicated predicate. If the triple is in
`delta` it is removed there, and `main` is not consulted. Otherwise a tombstone
is written, which makes the view tombstone-aware. The lemmas describe the tables
after either branch.
-/

namespace PgRipple.Storage.Store

variable {st : Store} {p : TermId} {session : Session} {q : Quad}

theorem DedicatedAt.deleteFromDedicated (h : st.DedicatedAt q.p) :
    (deleteFromDedicated session q st).2.DedicatedAt q.p := by
  simp only [Store.deleteFromDedicated]
  split
  · exact (h.setDelta _).subtractTripleCount
  · exact h.insertTombstones.addTombstoneCount.subtractTripleCount

theorem rare_deleteFromDedicated : (deleteFromDedicated session q st).2.rare = st.rare := by
  simp only [deleteFromDedicated]
  split
  · simp
  · simp [insertTombstones]

theorem rare_deleteFromVpRare {q' : Quad} :
    (deleteFromVpRare q st).2.rare.HasKey q' ↔ st.rare.HasKey q' ∧ q' ≠ q := by
  have deleted := UniqueTable.hasKey_deleteWhere (t := st.rare) (k := q') fun x => decide (x = q)
  simpa [deleteFromVpRare] using deleted

@[simp] theorem tables_deleteFromVpRare : (deleteFromVpRare q st).2.tables = st.tables := by
  simp [deleteFromVpRare]

theorem isDedicated_deleteFromVpRare {p' : TermId} :
    (deleteFromVpRare q st).2.isDedicated p' = st.isDedicated p' := by
  simp only [deleteFromVpRare, isDedicated_subtractTripleCount]
  rfl

/-- A delete removes the quad from `vp_rare` and nothing else from there. -/
theorem rare_deleteQuad {q' : Quad} :
    (deleteQuad session q st).2.rare.HasKey q' ↔ st.rare.HasKey q' ∧ q' ≠ q := by
  simp only [deleteQuad, rare_deleteFromVpRare]
  split
  · rw [rare_deleteFromDedicated]
  · rfl

theorem DedicatedAt.deleteFromVpRare (h : st.DedicatedAt q.p) :
    (deleteFromVpRare q st).2.DedicatedAt q.p := by
  refine DedicatedAt.subtractTripleCount ?_
  exact h.of_eq rfl rfl le_rfl

theorem DedicatedAt.deleteQuad (h : st.DedicatedAt q.p) :
    (deleteQuad session q st).2.DedicatedAt q.p := by
  simp only [Store.deleteQuad, h.dedicated, if_true]
  exact h.deleteFromDedicated.deleteFromVpRare

/-- A delete on a predicate without tables only touches `vp_rare` and counters. -/
theorem UnusedAt.deleteQuad (h : st.UnusedAt q.p) : (deleteQuad session q st).2.UnusedAt q.p := by
  simp only [Store.deleteQuad, h.dedicated, Bool.false_eq_true, if_false]
  refine ⟨?_, ?_, ?_⟩
  · rw [isDedicated_deleteFromVpRare]
    exact h.dedicated
  · simp only [deleteFromVpRare, Store.subtractTripleCount]
    split
    · have htap := h.htap
      unfold isHtap at htap ⊢
      rw [find?_updatePredicate]
      cases found : st.predicates.find? q.p <;> simp_all
    · exact h.htap
  · rw [tables_deleteFromVpRare]
    exact h.tables

theorem Layout.deleteQuad (h : st.Layout) : (deleteQuad session q st).2.Layout := by
  have here : (Store.deleteQuad session q st).2.DedicatedAt q.p ∨
      (Store.deleteQuad session q st).2.UnusedAt q.p :=
    (h.predicate q.p).imp (·.deleteQuad) (·.deleteQuad)
  refine h.of_onlyAt onlyAt_deleteQuad here ?_
  intro q' hq'
  have old := h.rare q' (rare_deleteQuad.mp hq').1
  by_cases same : q'.p = q.p
  · rw [same] at old ⊢
    exact ((h.unusedAt old).deleteQuad).dedicated
  · rw [onlyAt_deleteQuad.isDedicated same, old]

theorem tables_deleteQuad_of_dedicated (h : st.isDedicated q.p = true) :
    (deleteQuad session q st).2.tables = (deleteFromDedicated session q st).2.tables := by
  simp only [deleteQuad, h, if_true, tables_deleteFromVpRare]

/-- A delete that finds its triple in `delta` removes it there and stops. -/
theorem tables_deleteFromDedicated_of_inDelta (present : (st.tables q.p).InDelta q.key) :
    (deleteFromDedicated session q st).2.tables q.p =
      { st.tables q.p with
        delta := (st.tables q.p).delta.deleteWhere fun r => r.key = q.key } := by
  have found : 0 < ((st.tables q.p).delta.rows.filter fun r => r.key = q.key).length := by
    obtain ⟨r, hr, same⟩ := UniqueTable.hasKey_iff.mp present
    exact List.length_pos_of_mem (List.mem_filter.mpr ⟨hr, by simpa using same⟩)
  simp [deleteFromDedicated, found]

/-- A delete that misses `delta` adds one tombstone, and the view honours it. -/
theorem DedicatedAt.tables_deleteFromDedicated (h : st.DedicatedAt q.p)
    (absent : ¬ (st.tables q.p).InDelta q.key) :
    (Store.deleteFromDedicated session q st).2.tables q.p =
      { (st.insertTombstones session q.p [q.key]).tables q.p with view := .tombstoneAware } := by
  have missed : ¬ 0 < ((st.tables q.p).delta.rows.filter fun r => r.key = q.key).length := by
    intro found
    obtain ⟨r, hr⟩ := List.exists_mem_of_length_pos found
    obtain ⟨hr, same⟩ := List.mem_filter.mp hr
    exact absent (UniqueTable.hasKey_iff.mpr ⟨r, hr, by simpa using same⟩)
  have written : (st.insertTombstones session q.p [q.key]).DedicatedAt q.p := h.insertTombstones
  simp only [Store.deleteFromDedicated, missed, if_false, subtractTripleCount_tables]
  rw [tables_addTombstoneCount, written.view_addTombstoneCount]

/-- Deleting from `delta` uncovers whatever `main` shows. -/
theorem shows_deleteQuad_of_inDelta (dedicated : st.isDedicated q.p = true)
    (present : (st.tables q.p).InDelta q.key) (k : Key) :
    ((Store.deleteQuad session q st).2.tables q.p).Shows k ↔
      (st.tables q.p).MainVisible k ∨ ((st.tables q.p).InDelta k ∧ k ≠ q.key) := by
  rw [tables_deleteQuad_of_dedicated dedicated, tables_deleteFromDedicated_of_inDelta present,
    HtapTables.shows_iff]
  have deleted := UniqueTable.hasKey_deleteWhere (t := (st.tables q.p).delta) (k := k)
    fun x => decide (x = q.key)
  exact or_congr Iff.rfl (by simpa [HtapTables.InDelta] using deleted)

/-- Writing a tombstone hides the main rows of the triple. -/
theorem DedicatedAt.shows_deleteQuad (h : st.DedicatedAt q.p)
    (absent : ¬ (st.tables q.p).InDelta q.key) (k : Key) :
    ((Store.deleteQuad session q st).2.tables q.p).Shows k ↔
      ((st.tables q.p).InMain k ∧ ¬ (st.tables q.p).InTombstones k ∧ k ≠ q.key) ∨
        (st.tables q.p).InDelta k := by
  have tombstones : ((st.insertTombstones session q.p [q.key]).tables q.p).InTombstones k ↔
      (st.tables q.p).InTombstones k ∨ k = q.key := by
    rw [inTombstones_insertTombstones, List.mem_singleton]
  rw [tables_deleteQuad_of_dedicated h.dedicated, h.tables_deleteFromDedicated absent,
    HtapTables.shows_iff]
  simp only [HtapTables.MainVisible, forall_const]
  rw [tables_insertTombstones] at tombstones ⊢
  refine or_congr (and_congr Iff.rfl ?_) Iff.rfl
  exact (not_congr tombstones).trans not_or

theorem length_filter_key_pos_iff {α κ : Type*} [DecidableEq κ] {key : α → κ} {rows : List α}
    {k : κ} : 0 < (rows.filter fun r => key r = k).length ↔ k ∈ rows.map key := by
  rw [List.length_pos_iff_exists_mem]
  simp only [List.mem_filter, decide_eq_true_eq, List.mem_map]

theorem deleteFromDedicated_count (session : Session) (q : Quad) (st : Store) :
    0 ≤ (deleteFromDedicated session q st).1 ∧
      (0 < (deleteFromDedicated session q st).1 ↔
        (st.tables q.p).InDelta q.key ∨ (st.tables q.p).InMain q.key) := by
  have inDelta : 0 < ((st.tables q.p).delta.rows.filter fun r => r.key = q.key).length ↔
      (st.tables q.p).InDelta q.key := length_filter_key_pos_iff
  have inMain : 0 < ((st.tables q.p).main.filter fun r => r.key = q.key).length ↔
      (st.tables q.p).InMain q.key := length_filter_key_pos_iff
  simp only [deleteFromDedicated, ← inDelta, ← inMain]
  split <;> simp only <;> omega

theorem deleteFromVpRare_count (q : Quad) (st : Store) :
    0 ≤ (deleteFromVpRare q st).1 ∧ (0 < (deleteFromVpRare q st).1 ↔ st.rare.HasKey q) := by
  have inRare : 0 < (st.rare.rows.filter fun r => r.quad = q).length ↔ st.rare.HasKey q :=
    length_filter_key_pos_iff
  simp only [deleteFromVpRare, ← inRare]
  omega

/-- The number a delete returns is positive exactly if it met a row in `delta`, in
`main` or in `vp_rare`. Tombstones are not consulted. -/
theorem deleteQuad_pos_iff :
    0 < (deleteQuad session q st).1 ↔
      (st.isDedicated q.p = true ∧
        ((st.tables q.p).InDelta q.key ∨ (st.tables q.p).InMain q.key)) ∨
      st.rare.HasKey q := by
  simp only [deleteQuad]
  split
  · rename_i dedicated
    obtain ⟨nonneg, pos⟩ := deleteFromDedicated_count session q st
    obtain ⟨nonneg', pos'⟩ := deleteFromVpRare_count q (deleteFromDedicated session q st).2
    rw [rare_deleteFromDedicated] at pos'
    rw [← pos, ← pos']
    simp only [dedicated, true_and]
    omega
  · rename_i other
    rw [← (deleteFromVpRare_count q st).2]
    simp [other]

theorem Inv.deleteQuad (h : st.Inv) : (deleteQuad session q st).2.Inv := by
  refine h.of_onlyAt onlyAt_deleteQuad h.toLayout.deleteQuad ?_
  cases h.predicate q.p with
  | inl used =>
    rw [tables_deleteQuad_of_dedicated used.dedicated]
    by_cases present : (st.tables q.p).InDelta q.key
    · rw [tables_deleteFromDedicated_of_inDelta present]
      exact h.clean q.p
    · rw [used.tables_deleteFromDedicated present]
      intro view
      cases view
  | inr unused =>
    rw [unused.deleteQuad.tables]
    intro view
    cases view

end PgRipple.Storage.Store
