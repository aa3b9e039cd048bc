import PgRipple.Storage.Reachable

/-!
# Removing duplicates

`deduplicate_predicate` looks for rows of one quad in each of the three tables. `delta` and
`vp_rare` have a unique key, so nothing is found there. Duplicates in `main` are given a tombstone,
which says nothing about the id of a row: it hides all copies of the quad, the one that was to be
kept included. The view may not look at tombstones for the time being, but the next merge does.

The operation is invisible as long as this does not matter, that is, if a row of `delta` with a
smaller id stands in for every quad that is lost in `main`.
-/

namespace PgRipple.Storage

/-- `MIN(i)` of the rows with a key. -/
def HtapTables.minId (rows : List Row) (k : Key) : Int :=
  ((rows.filter fun r => r.key = k).map Row.i).min?.getD 0

/-- The rows of `delta` that are deleted: several have the key, and the id is not the least. -/
def HtapTables.deltaDuplicate (t : HtapTables) (r : Row) : Bool :=
  1 < (t.delta.rows.filter fun r' => r'.key = r.key).length ∧ r.i ≠ minId t.delta.rows r.key

/-- `SELECT DISTINCT s, o, g FROM ranked WHERE rn > 1`, over `main`. -/
def HtapTables.dupes (t : HtapTables) : List Key :=
  ((t.main.map Row.key).filter fun k => 1 < t.mainCopies k).eraseDups

namespace Store

/-- `SELECT MIN(i) FROM vp_rare WHERE p = $1 GROUP BY p, s, o, g`. -/
def rareMinIds (st : Store) (p : TermId) : List Int :=
  (st.rare.rows.filter fun r => r.quad.p = p).map fun r =>
    ((st.rare.rows.filter fun r' => r'.quad = r.quad).map RareRow.i).min?.getD 0

/-- `deduplicate_predicate`: the number of rows removed. -/
def deduplicatePredicate (session : Session) (p : TermId) (st : Store) : Int × Store :=
  if st.isDedicated p then
    let t := st.tables p
    let deltaRemoved := (t.delta.rows.filter t.deltaDuplicate).length
    let st := st.setTables p { t with delta := t.delta.deleteWhere t.deltaDuplicate }
    (deltaRemoved + t.dupes.length, st.insertTombstones session p t.dupes)
  else
    let removed (r : RareRow) : Bool := r.quad.p = p ∧ r.i ∉ st.rareMinIds p
    ((st.rare.rows.filter removed).length, { st with rare := st.rare.deleteWhere removed })

variable {st st' : Store} {p : TermId} {session : Session} {k : Key} {i : Int} {cfg : Config}

/-- The unique key of `delta` leaves nothing to remove. -/
theorem deltaDuplicate_eq_false {t : HtapTables} {r : Row} : t.deltaDuplicate r = false := by
  have single : (t.delta.rows.filter fun r' => r'.key = r.key).length =
      if t.delta.HasKey r.key then 1 else 0 := t.delta.length_filter_key r.key
  apply decide_eq_false
  rintro ⟨several, -⟩
  rw [single] at several
  split at several
  · omega
  · omega

@[simp] theorem mem_dupes {t : HtapTables} : k ∈ t.dupes ↔ 1 < t.mainCopies k := by
  rw [HtapTables.dupes, List.mem_eraseDups, List.mem_filter, decide_eq_true_eq]
  refine and_iff_right_of_imp ?_
  intro several
  exact HtapTables.mainCopies_pos_iff.mp (by omega)

/-- In the dedicated tables only tombstones are written. -/
theorem deduplicatePredicate_of_dedicated (hp : st.isDedicated p = true) :
    (deduplicatePredicate session p st).2 = st.insertTombstones session p (st.tables p).dupes := by
  have delta : (st.tables p).delta.deleteWhere (st.tables p).deltaDuplicate =
      (st.tables p).delta := UniqueTable.deleteWhere_eq_self fun _ _ => deltaDuplicate_eq_false
  have same : st.setTables p (st.tables p) = st := by
    rw [setTables, Function.update_eq_self]
  simp only [deduplicatePredicate, hp, if_true, delta]
  exact congrArg (insertTombstones session p (st.tables p).dupes) same

/-- In `vp_rare` nothing is written. -/
theorem deduplicatePredicate_of_rare (hp : st.isDedicated p = false) :
    (deduplicatePredicate session p st).2 = st := by
  have kept : ∀ r ∈ st.rare.rows, decide (r.quad.p = p ∧ r.i ∉ st.rareMinIds p) = false := by
    intro r hr
    apply decide_eq_false
    rintro ⟨here, absent⟩
    apply absent
    refine List.mem_map.mpr ⟨r, List.mem_filter.mpr ⟨hr, decide_eq_true here⟩, ?_⟩
    have single : (st.rare.rows.filter fun r' => r'.quad = r.quad) = [r] :=
      UniqueTable.filter_key_eq hr
    rw [single]
    rfl
  simp only [deduplicatePredicate, hp, Bool.false_eq_true, if_false]
  rw [UniqueTable.deleteWhere_eq_self kept]

theorem Layout.deduplicatePredicate (h : st.Layout) :
    (Store.deduplicatePredicate session p st).2.Layout := by
  cases hp : st.isDedicated p with
  | true =>
    rw [deduplicatePredicate_of_dedicated hp]
    exact h.of_dedicatedAt onlyAt_insertTombstones hp (h.dedicatedAt hp).insertTombstones
      fun _ hq => hq
  | false =>
    rw [deduplicatePredicate_of_rare hp]
    exact h

/-- The rows of the predicate before the view picks one for each quad. -/
def storedRows (st : Store) (p : TermId) : List Row :=
  (if st.isDedicated p then (st.tables p).viewMain ++ (st.tables p).delta.rows else []) ++
    st.rareRowsOf p

/-- The rows of the predicate that a reader gets. -/
def readRows (st : Store) (p : TermId) : List Row :=
  (if st.isDedicated p then (st.tables p).htapView else []) ++ st.rareRowsOf p

/-- The ids under which a quad is shown. -/
def shownIds (st : Store) (p : TermId) (k : Key) : List Int :=
  ((st.readRows p).filter fun r => r.key = k).map Row.i

/-- A reader of `st'` finds the quads of `st`, each once and under the smallest of its ids. -/
structure ReadsAs (p : TermId) (st st' : Store) : Prop where
  visible : ∀ k : Key, st'.Visible (k.quad p) ↔ st.Visible (k.quad p)
  once : ∀ k : Key, st.Visible (k.quad p) → ∃ i, st'.shownIds p k = [i] ∧
    IsLeast (DistinctOn.Ranks Row.key Row.i (st.storedRows p) k) i

theorem Layout.rareRowsOf_eq_nil (h : st.Layout) (hp : st.isDedicated p = true) :
    st.rareRowsOf p = [] := by
  rw [rareRowsOf, List.map_eq_nil_iff, List.filter_eq_nil_iff]
  intro r hr same
  have stays := h.rare r.quad (UniqueTable.HasKey.of_mem hr)
  rw [of_decide_eq_true same, hp] at stays
  cases stays

theorem shows_iff_exists_showsAs {t : HtapTables} : t.Shows k ↔ ∃ i, t.ShowsAs k i := by
  constructor
  · intro shown
    obtain ⟨r, hr, same⟩ := List.mem_map.mp shown
    exact ⟨r.i, r, hr, same, rfl⟩
  · rintro ⟨i, r, hr, same, -⟩
    exact List.mem_map.mpr ⟨r, hr, same⟩

theorem showsAs_unique {t : HtapTables} {j : Int} (hi : t.ShowsAs k i) (hj : t.ShowsAs k j) :
    i = j := (HtapTables.showsAs_iff.mp hi).unique (HtapTables.showsAs_iff.mp hj)

theorem visible_iff_showsAs (h : st.Layout) (hp : st.isDedicated p = true) :
    st.Visible (k.quad p) ↔ ∃ i, (st.tables p).ShowsAs k i := by
  rw [← shows_iff_exists_showsAs, Visible, Key.quad_p, Key.quad_key, hp, or_iff_left]
  · simp
  · intro old
    have stays := h.rare _ old
    rw [Key.quad_p, hp] at stays
    cases stays

/-- A list with one row for each key has at most one with a given key. -/
theorem filter_key_of_nodup {rows : List Row} (unique : (rows.map Row.key).Nodup) {r : Row}
    (hr : r ∈ rows) : (rows.filter fun r' => r'.key = r.key) = [r] :=
  UniqueTable.filter_key_eq (t := (⟨rows, unique⟩ : UniqueTable Row.key)) hr

theorem shownIds_eq_singleton_iff (h : st.Layout) (hp : st.isDedicated p = true) :
    st.shownIds p k = [i] ↔ (st.tables p).ShowsAs k i := by
  rw [shownIds, readRows, if_pos hp, h.rareRowsOf_eq_nil hp, List.append_nil]
  constructor
  · intro only
    have member : i ∈ (((st.tables p).htapView.filter fun r => r.key = k).map Row.i) := by
      rw [only]
      exact List.mem_singleton_self i
    obtain ⟨r, hr, id⟩ := List.mem_map.mp member
    obtain ⟨hr, same⟩ := List.mem_filter.mp hr
    exact ⟨r, hr, of_decide_eq_true same, id⟩
  · rintro ⟨r, hr, rfl, rfl⟩
    have unique : ((st.tables p).htapView.map Row.key).Nodup :=
      DistinctOn.nodup_map_key_distinctOn _
    rw [filter_key_of_nodup unique hr]
    rfl

theorem isLeast_storedRows_iff (h : st.Layout) (hp : st.isDedicated p = true) :
    IsLeast (DistinctOn.Ranks Row.key Row.i (st.storedRows p) k) i ↔
      (st.tables p).ShowsAs k i := by
  rw [storedRows, if_pos hp, h.rareRowsOf_eq_nil hp, List.append_nil, HtapTables.showsAs_iff]

/-- For a dedicated predicate, to read the same is to be shown the same ids. -/
theorem readsAs_iff (h : st.Layout) (h' : st'.Layout) (hp : st.isDedicated p = true)
    (hp' : st'.isDedicated p = true) :
    ReadsAs p st st' ↔ ∀ k i, (st'.tables p).ShowsAs k i ↔ (st.tables p).ShowsAs k i := by
  constructor
  · rintro ⟨visible, once⟩ k i
    have some_ (i : Int) (before : (st.tables p).ShowsAs k i) : (st'.tables p).ShowsAs k i := by
      obtain ⟨j, shown, least⟩ := once k ((visible_iff_showsAs h hp).mpr ⟨i, before⟩)
      rw [showsAs_unique before ((isLeast_storedRows_iff h hp).mp least)]
      exact (shownIds_eq_singleton_iff h' hp').mp shown
    refine ⟨?_, some_ i⟩
    intro after
    have seen := (visible k).mp ((visible_iff_showsAs h' hp').mpr ⟨i, after⟩)
    obtain ⟨j, before⟩ := (visible_iff_showsAs h hp).mp seen
    rw [showsAs_unique after (some_ j before)]
    exact before
  · intro same
    refine ⟨?_, ?_⟩
    · intro k
      rw [visible_iff_showsAs h hp, visible_iff_showsAs h' hp']
      exact exists_congr (same k)
    · intro k seen
      obtain ⟨i, before⟩ := (visible_iff_showsAs h hp).mp seen
      exact ⟨i, (shownIds_eq_singleton_iff h' hp').mpr ((same k i).mpr before),
        (isLeast_storedRows_iff h hp).mpr before⟩

/-- A predicate in `vp_rare` has no duplicates. -/
theorem readsAs_self (hp : st.isDedicated p = false) : ReadsAs p st st := by
  have rows : st.storedRows p = st.rareRowsOf p := by
    rw [storedRows, hp]
    rfl
  have read : st.readRows p = st.rareRowsOf p := by
    rw [readRows, hp]
    rfl
  have unique : ((st.rareRowsOf p).map Row.key).Nodup := by
    have inside : ((st.rareRowsOf p).map fun r => r.key.quad p).Nodup := by
      have quads : ((st.rareRowsOf p).map fun r => r.key.quad p) =
          (st.rare.rows.filter fun r => r.quad.p = p).map RareRow.quad := by
        rw [rareRowsOf, List.map_map]
        refine List.map_congr_left ?_
        intro r hr
        have here : r.quad.p = p := of_decide_eq_true (List.mem_filter.mp hr).2
        exact Quad.ext_key here.symm rfl
      rw [quads]
      exact st.rare.unique.sublist (List.filter_sublist.map _)
    exact List.Nodup.of_map (fun k : Key => k.quad p) (by rwa [List.map_map])
  refine ⟨fun _ => Iff.rfl, ?_⟩
  intro k seen
  have member : k ∈ (st.rareRowsOf p).map Row.key := by
    rw [mem_map_key_rareRowsOf]
    refine seen.resolve_left ?_
    rintro ⟨dedicated, -⟩
    rw [Key.quad_p, hp] at dedicated
    cases dedicated
  obtain ⟨r, hr, rfl⟩ := List.mem_map.mp member
  have only := filter_key_of_nodup unique hr
  refine ⟨r.i, ?_, ?_, ?_⟩
  · rw [shownIds, read, only]
    rfl
  · rw [rows]
    exact ⟨r, hr, rfl, rfl⟩
  · rintro j ⟨r', hr', same, rfl⟩
    rw [rows] at hr'
    have mine : r' ∈ (st.rareRowsOf p).filter fun x => x.key = r.key :=
      List.mem_filter.mpr ⟨hr', decide_eq_true same⟩
    rw [only, List.mem_singleton] at mine
    rw [mine]

/-- Every quad of `main` that the view reads and that has a tombstone or several rows is in
`delta` as well, with an id that is not larger. -/
def DuplicatesCovered (t : HtapTables) : Prop :=
  ∀ k, t.MainVisible k → t.InTombstones k ∨ 1 < t.mainCopies k →
    ∃ d ∈ t.delta.rows, d.key = k ∧ ∀ r ∈ t.main, r.key = k → d.i ≤ r.i

theorem mem_ranks_viewMain {t : HtapTables} :
    i ∈ DistinctOn.Ranks Row.key Row.i (t.viewMain ++ t.delta.rows) k ↔
      (i ∈ DistinctOn.Ranks Row.key Row.i t.main k ∧
          (t.view = .tombstoneAware → ¬ t.InTombstones k)) ∨
        i ∈ DistinctOn.Ranks Row.key Row.i t.delta.rows k := by
  rw [DistinctOn.ranks_append, Set.mem_union, HtapTables.viewMain]
  refine or_congr ?_ Iff.rfl
  have live := DistinctOn.mem_ranks_filter Row.key Row.i t.main
    (fun k => decide (¬ t.InTombstones k)) k i
  cases t.view with
  | tombstoneAware => simpa [HtapTables.mainMinusTombstones] using live
  | tombstoneSkip => simp

theorem mem_ranks_mainMinusTombstones {t : HtapTables} :
    i ∈ DistinctOn.Ranks Row.key Row.i (t.mainMinusTombstones ++ t.delta.rows) k ↔
      (i ∈ DistinctOn.Ranks Row.key Row.i t.main k ∧ ¬ t.InTombstones k) ∨
        i ∈ DistinctOn.Ranks Row.key Row.i t.delta.rows k := by
  have live := DistinctOn.mem_ranks_filter Row.key Row.i t.main
    (fun k => decide (¬ t.InTombstones k)) k i
  rw [DistinctOn.ranks_append, Set.mem_union]
  refine or_congr ?_ Iff.rfl
  simpa [HtapTables.mainMinusTombstones] using live

/-- The tables after `deduplicate_predicate`: quads with several rows in `main` have tombstones. -/
structure Deduplicated (t t' : HtapTables) : Prop where
  delta : t'.delta = t.delta
  main : t'.main = t.main
  view : t'.view = t.view
  tombstones : ∀ k, t'.InTombstones k ↔ t.InTombstones k ∨ 1 < t.mainCopies k

theorem deduplicated_deduplicatePredicate (session : Session) (hp : st.isDedicated p = true) :
    Deduplicated (st.tables p) ((deduplicatePredicate session p st).2.tables p) := by
  rw [deduplicatePredicate_of_dedicated hp]
  refine ⟨?_, ?_, ?_, ?_⟩
  · rw [tables_insertTombstones]
  · rw [tables_insertTombstones]
  · rw [tables_insertTombstones]
  · intro k
    rw [inTombstones_insertTombstones, mem_dupes]

/-- The same ids are shown, now and after a merge, if the lost rows of `main` are covered. -/
theorem Deduplicated.showsAs_iff {t t' : HtapTables} (h : Deduplicated t t') :
    ((∀ k i, t'.ShowsAs k i ↔ t.ShowsAs k i) ∧
        ∀ cfg k i, (t'.merged cfg).ShowsAs k i ↔ t.ShowsAs k i) ↔ DuplicatesCovered t := by
  have now (k : Key) (i : Int) : t'.ShowsAs k i ↔ IsLeast (DistinctOn.Ranks Row.key Row.i
      (t'.viewMain ++ t'.delta.rows) k) i := HtapTables.showsAs_iff
  have merged (cfg : Config) (k : Key) (i : Int) : (t'.merged cfg).ShowsAs k i ↔
      IsLeast (DistinctOn.Ranks Row.key Row.i (t'.mainMinusTombstones ++ t'.delta.rows) k) i :=
    HtapTables.showsAs_merged_iff
  constructor
  · rintro ⟨-, afterMerge⟩ k visible lost
    obtain ⟨i, before⟩ := shows_iff_exists_showsAs.mp (HtapTables.shows_iff.mpr (.inl visible))
    have least := HtapTables.showsAs_iff.mp before
    have found := ((merged ⟨0, true, 0⟩ k i).mp ((afterMerge ⟨0, true, 0⟩ k i).mpr before)).1
    rw [mem_ranks_mainMinusTombstones, h.main, h.delta, h.tombstones] at found
    obtain ⟨d, hd, same, rfl⟩ := found.resolve_left fun main => main.2 lost
    refine ⟨d, hd, same, ?_⟩
    intro r hr key
    exact least.2 (mem_ranks_viewMain.mpr (.inl ⟨⟨r, hr, key, rfl⟩, visible.2⟩))
  · intro covered
    have cover (k : Key) : ∀ j ∈ DistinctOn.Ranks Row.key Row.i (t.viewMain ++ t.delta.rows) k,
        ∃ m ∈ DistinctOn.Ranks Row.key Row.i (t'.mainMinusTombstones ++ t'.delta.rows) k,
          m ≤ j := by
      intro j hj
      obtain ⟨main, read⟩ | delta := mem_ranks_viewMain.mp hj
      · obtain ⟨r, hr, key, rfl⟩ := main
        by_cases lost : t.InTombstones k ∨ 1 < t.mainCopies k
        · have visible : t.MainVisible k := ⟨List.mem_map.mpr ⟨r, hr, key⟩, read⟩
          obtain ⟨d, hd, same, below⟩ := covered k visible lost
          refine ⟨d.i, mem_ranks_mainMinusTombstones.mpr (.inr ?_), below r hr key⟩
          rw [h.delta]
          exact ⟨d, hd, same, rfl⟩
        · refine ⟨r.i, mem_ranks_mainMinusTombstones.mpr (.inl ⟨?_, ?_⟩), le_rfl⟩
          · rw [h.main]
            exact ⟨r, hr, key, rfl⟩
          · rw [h.tombstones]
            exact lost
      · refine ⟨j, mem_ranks_mainMinusTombstones.mpr (.inr ?_), le_rfl⟩
        rw [h.delta]
        exact delta
    have less (k : Key) : DistinctOn.Ranks Row.key Row.i
        (t'.mainMinusTombstones ++ t'.delta.rows) k ⊆
          DistinctOn.Ranks Row.key Row.i (t'.viewMain ++ t'.delta.rows) k := by
      intro j hj
      exact mem_ranks_viewMain.mpr ((mem_ranks_mainMinusTombstones.mp hj).imp_left
        fun main => ⟨main.1, fun _ => main.2⟩)
    have inside (k : Key) : DistinctOn.Ranks Row.key Row.i (t'.viewMain ++ t'.delta.rows) k ⊆
        DistinctOn.Ranks Row.key Row.i (t.viewMain ++ t.delta.rows) k := by
      intro j hj
      have old := mem_ranks_viewMain.mp hj
      rw [h.main, h.delta, h.view, h.tombstones] at old
      exact mem_ranks_viewMain.mpr (old.imp_left
        fun main => ⟨main.1, fun aware => mt .inl (main.2 aware)⟩)
    refine ⟨?_, ?_⟩
    · intro k i
      rw [now, HtapTables.showsAs_iff]
      refine DistinctOn.isLeast_iff_of_cover (inside k) ?_
      intro j hj
      obtain ⟨m, hm, below⟩ := cover k j hj
      exact ⟨m, less k hm, below⟩
    · intro cfg k i
      rw [merged, HtapTables.showsAs_iff]
      exact DistinctOn.isLeast_iff_of_cover ((less k).trans (inside k)) (cover k)

end Store

/-- A call of a storage operation or of `deduplicate_predicate`. -/
inductive MaintenanceOp where
  | operation (op : Op)
  | deduplicatePredicate (session : Session) (p : TermId)

/-- The store after a call. -/
def MaintenanceOp.apply : MaintenanceOp → Store → Store
  | .operation op, st => op.apply st
  | .deduplicatePredicate session p, st => (Store.deduplicatePredicate session p st).2

namespace Store

variable {st : Store} {p : TermId} {session : Session}

/-- Execute calls one after the other on a fresh store. -/
def maintained (ops : List MaintenanceOp) : Store :=
  ops.foldl (fun st op => op.apply st) initial

theorem layout_maintained (ops : List MaintenanceOp) : (maintained ops).Layout := by
  refine List.foldlRecOn ops _ layout_initial ?_
  intro st kept op _
  cases op with
  | operation op => exact kept.apply op
  | deduplicatePredicate session p => exact kept.deduplicatePredicate

/-- Removing duplicates is invisible, now and after the next merge, exactly if the predicate is in
`vp_rare` or the rows that are lost in `main` are covered by `delta`. -/
theorem readsAs_deduplicatePredicate_iff (ops : List MaintenanceOp) (session : Session)
    (p : TermId) :
    (ReadsAs p (maintained ops) (deduplicatePredicate session p (maintained ops)).2 ∧
        ∀ cfg, ReadsAs p (maintained ops)
          (mergePredicate cfg p (deduplicatePredicate session p (maintained ops)).2).2) ↔
      ((maintained ops).isDedicated p = true → DuplicatesCovered ((maintained ops).tables p)) := by
  have layout := layout_maintained ops
  generalize maintained ops = st at layout ⊢
  cases hp : st.isDedicated p with
  | false =>
      rw [deduplicatePredicate_of_rare hp]
      refine iff_of_true ⟨readsAs_self hp, ?_⟩ (by simp)
      intro cfg
      rw [(layout.unusedAt hp).mergePredicate_eq]
      exact readsAs_self hp
  | true =>
      have layout' : (deduplicatePredicate session p st).2.Layout := layout.deduplicatePredicate
      have used : (deduplicatePredicate session p st).2.DedicatedAt p := by
        rw [deduplicatePredicate_of_dedicated hp]
        exact (layout.dedicatedAt hp).insertTombstones
      have effect := deduplicated_deduplicatePredicate session hp
      rw [readsAs_iff layout layout' hp used.dedicated, ← effect.showsAs_iff]
      have merged (cfg : Config) :
          ReadsAs p st (mergePredicate cfg p (deduplicatePredicate session p st).2).2 ↔
            ∀ k i, (((deduplicatePredicate session p st).2.tables p).merged cfg).ShowsAs k i ↔
              (st.tables p).ShowsAs k i := by
        rw [readsAs_iff layout layout'.mergePredicate hp used.mergePredicate.dedicated,
          used.tables_mergePredicate]
      simp only [merged, forall_const]

/-- Two copies of a quad in `main`: both are gone after the next merge. -/
theorem not_visible_deduplicatePredicate :
    (maintained [.operation (.insertTriple ⟨1000, false, 0⟩ 0 ⟨1, 2, 3, 0⟩),
        .operation (.promotePredicate 2), .operation (.mergePredicate ⟨1000, false, 0⟩ 2),
        .operation (.insertTriple ⟨1000, false, 0⟩ 0 ⟨1, 2, 3, 0⟩),
        .operation (.mergePredicate ⟨1000, false, 0⟩ 2)]).Visible ⟨1, 2, 3, 0⟩ ∧
      ¬ (maintained [.operation (.insertTriple ⟨1000, false, 0⟩ 0 ⟨1, 2, 3, 0⟩),
        .operation (.promotePredicate 2), .operation (.mergePredicate ⟨1000, false, 0⟩ 2),
        .operation (.insertTriple ⟨1000, false, 0⟩ 0 ⟨1, 2, 3, 0⟩),
        .operation (.mergePredicate ⟨1000, false, 0⟩ 2), .deduplicatePredicate 0 2,
        .operation (.mergePredicate ⟨1000, false, 0⟩ 2)]).Visible ⟨1, 2, 3, 0⟩ := by
  decide

end Store

end PgRipple.Storage
