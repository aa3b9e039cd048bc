import PgRipple.Storage.Frame

/-!
# The storage invariant

A predicate is in one of two states. Before promotion (`UnusedAt`) nothing but
`vp_rare` holds its rows. After promotion (`DedicatedAt`) its catalog row has the
`htap` mark, tombstone ids are bounded by the sequence, and the tombstone-skip
form of the view is installed only while `tombstone_count` is `0`.

`Layout` says this of every predicate and is kept by all operations. `Inv` adds
that the tombstone-skip form goes with an empty tombstone table. That is what the
skip form relies on, and `drop_graph` is the one operation that breaks it.
-/

namespace PgRipple.Storage.Store

/-- The predicate has its own tables. -/
structure DedicatedAt (st : Store) (p : TermId) : Prop where
  dedicated : st.isDedicated p = true
  htap : st.isHtap p = true
  skip : (st.tables p).view = .tombstoneSkip → st.tombstoneCount p = 0
  tombstones_le : ∀ x ∈ (st.tables p).tombstones, x.i ≤ st.seq.lastValue

/-- The predicate lives in `vp_rare`, if anywhere. -/
structure UnusedAt (st : Store) (p : TermId) : Prop where
  dedicated : st.isDedicated p = false
  htap : st.isHtap p = false
  tables : st.tables p = HtapTables.fresh

/-- What every operation maintains. -/
structure Layout (st : Store) : Prop where
  predicate : ∀ p, st.DedicatedAt p ∨ st.UnusedAt p
  rare : ∀ q, st.rare.HasKey q → st.isDedicated q.p = false

/-- What every operation but `drop_graph` maintains. -/
structure Inv (st : Store) : Prop extends Layout st where
  clean : ∀ p, (st.tables p).view = .tombstoneSkip → (st.tables p).tombstones = []

variable {st st' : Store} {p p' : TermId} {session : Session}

theorem Layout.dedicatedAt (h : st.Layout) (hp : st.isDedicated p = true) : st.DedicatedAt p := by
  cases h.predicate p with
  | inl used => exact used
  | inr unused =>
    have := unused.dedicated
    simp [hp] at this

theorem Layout.unusedAt (h : st.Layout) (hp : st.isDedicated p = false) : st.UnusedAt p := by
  cases h.predicate p with
  | inl used =>
    have := used.dedicated
    simp [hp] at this
  | inr unused => exact unused

theorem DedicatedAt.exists_row (h : st.DedicatedAt p) :
    ∃ r, st.predicates.find? p = some r ∧ r.hasTable = true ∧ r.htap = true := by
  have dedicated := h.dedicated
  have htap := h.htap
  cases found : st.predicates.find? p with
  | none => simp [isDedicated, found] at dedicated
  | some r =>
    refine ⟨r, rfl, ?_, ?_⟩
    · simpa [isDedicated, found] using dedicated
    · simpa [isHtap, found] using htap

/-- A predicate is described by its catalog row, its tables and the sequence. -/
theorem DedicatedAt.of_row {r : PredicateRow} (found : st.predicates.find? p = some r)
    (dedicated : r.hasTable = true) (htap : r.htap = true)
    (skip : (st.tables p).view = .tombstoneSkip → r.tombstoneCount = 0)
    (tombstones_le : ∀ x ∈ (st.tables p).tombstones, x.i ≤ st.seq.lastValue) :
    st.DedicatedAt p where
  dedicated := by simp [isDedicated, found, dedicated]
  htap := by simp [isHtap, found, htap]
  skip view := by simp [tombstoneCount, found, skip view]
  tombstones_le := tombstones_le

theorem DedicatedAt.of_onlyAt (h : st.DedicatedAt p') (only : OnlyAt p st st') (hp : p' ≠ p) :
    st'.DedicatedAt p' := by
  obtain ⟨r, found, dedicated, htap⟩ := h.exists_row
  have count : (st.tables p').view = .tombstoneSkip → r.tombstoneCount = 0 := by
    intro view
    simpa [tombstoneCount, found] using h.skip view
  refine .of_row ((only.catalog p' hp).trans found) dedicated htap ?_ ?_
  · rw [only.tables p' hp]
    exact count
  · intro x hx
    rw [only.tables p' hp] at hx
    exact (h.tombstones_le x hx).trans only.seq

theorem UnusedAt.of_onlyAt (h : st.UnusedAt p') (only : OnlyAt p st st') (hp : p' ≠ p) :
    st'.UnusedAt p' where
  dedicated := (only.isDedicated hp).trans h.dedicated
  htap := by
    rw [isHtap, only.catalog p' hp]
    exact h.htap
  tables := (only.tables p' hp).trans h.tables

/-- A change confined to `p` keeps the layout once it is re-established there. -/
theorem Layout.of_onlyAt (h : st.Layout) (only : OnlyAt p st st')
    (here : st'.DedicatedAt p ∨ st'.UnusedAt p)
    (rare : ∀ q, st'.rare.HasKey q → st'.isDedicated q.p = false) : st'.Layout where
  predicate p' := by
    by_cases hp : p' = p
    · exact hp ▸ here
    · exact (h.predicate p').imp (·.of_onlyAt only hp) (·.of_onlyAt only hp)
  rare := rare

/-- The same for an operation on a dedicated predicate that adds nothing to `vp_rare`. -/
theorem Layout.of_dedicatedAt (h : st.Layout) (only : OnlyAt p st st')
    (before : st.isDedicated p = true) (here : st'.DedicatedAt p)
    (rare : ∀ q, st'.rare.HasKey q → st.rare.HasKey q) : st'.Layout := by
  refine h.of_onlyAt only (.inl here) ?_
  intro q hq
  have stays : st.isDedicated q.p = false := h.rare q (rare q hq)
  by_cases hp : q.p = p
  · simp [hp, before] at stays
  · rw [only.isDedicated hp, stays]

theorem Inv.of_onlyAt (h : st.Inv) (only : OnlyAt p st st') (layout : st'.Layout)
    (clean : (st'.tables p).view = .tombstoneSkip → (st'.tables p).tombstones = []) :
    st'.Inv where
  toLayout := layout
  clean p' := by
    by_cases hp : p' = p
    · exact hp ▸ clean
    · rw [only.tables p' hp]
      exact h.clean p'

/-- An update of counters other than `tombstone_count`. -/
theorem DedicatedAt.updatePredicate (h : st.DedicatedAt p) {f : PredicateRow → PredicateRow}
    (hasTable : ∀ r, r.hasTable = true → (f r).hasTable = true)
    (htap : ∀ r, (f r).htap = r.htap)
    (count : ∀ r, r.tombstoneCount = 0 → (f r).tombstoneCount = 0) :
    (st.updatePredicate p f).DedicatedAt p := by
  obtain ⟨r, found, dedicated, isHtap⟩ := h.exists_row
  have found' : (st.updatePredicate p f).predicates.find? p = some { f r with id := r.id } := by
    simp [find?_updatePredicate, found]
  refine .of_row found' (hasTable r dedicated) ((htap r).trans isHtap) ?_ h.tombstones_le
  intro view
  apply count
  simpa [tombstoneCount, found] using h.skip view

theorem DedicatedAt.addTripleCount (h : st.DedicatedAt p) {n : Int} :
    (st.addTripleCount p n).DedicatedAt p :=
  h.updatePredicate (fun _ => id) (fun _ => rfl) fun _ => id

theorem DedicatedAt.setTripleCount (h : st.DedicatedAt p) {n : Int} :
    (Store.setTripleCount p n st).DedicatedAt p :=
  h.updatePredicate (fun _ => id) (fun _ => rfl) fun _ => id

theorem DedicatedAt.subtractTripleCount (h : st.DedicatedAt p) {n : Int} :
    (st.subtractTripleCount p n).DedicatedAt p := by
  unfold Store.subtractTripleCount
  split
  · exact h.updatePredicate (fun _ => id) (fun _ => rfl) fun _ => id
  · exact h

/-- A write to the tables that neither installs the skip form nor adds tombstones. -/
theorem DedicatedAt.setTables (h : st.DedicatedAt p) {t : HtapTables}
    (view : t.view = .tombstoneSkip → (st.tables p).view = .tombstoneSkip)
    (tombstones : ∀ x ∈ t.tombstones, x ∈ (st.tables p).tombstones) :
    (st.setTables p t).DedicatedAt p where
  dedicated := h.dedicated
  htap := h.htap
  skip hview := by
    rw [setTables_tables_self] at hview
    exact h.skip (view hview)
  tombstones_le x hx := by
    rw [setTables_tables_self] at hx
    exact h.tombstones_le x (tombstones x hx)

/-- A write to `delta` keeps the predicate's state. -/
theorem DedicatedAt.setDelta (h : st.DedicatedAt p) (delta : UniqueTable Row.key) :
    (st.setTables p { st.tables p with delta := delta }).DedicatedAt p :=
  h.setTables id fun _ hx => hx

/-- The sequence may advance, and `vp_rare` may change, under a dedicated predicate. -/
theorem DedicatedAt.of_eq (h : st.DedicatedAt p) (predicates : st'.predicates = st.predicates)
    (tables : st'.tables p = st.tables p) (seq : st.seq.lastValue ≤ st'.seq.lastValue) :
    st'.DedicatedAt p where
  dedicated := by rw [isDedicated, predicates]; exact h.dedicated
  htap := by rw [isHtap, predicates]; exact h.htap
  skip := by
    rw [tables, tombstoneCount, predicates]
    exact h.skip
  tombstones_le x hx := by
    rw [tables] at hx
    exact (h.tombstones_le x hx).trans seq

theorem tables_insertTombstones (session : Session) (p : TermId) (keys : List Key) (st : Store) :
    (insertTombstones session p keys st).tables p =
      { st.tables p with
        tombstones := (st.tables p).tombstones ++
          (st.seq.stamp session keys).1.map fun x => ⟨x.1, x.2⟩ } := by
  simp [insertTombstones]

/-- The tombstones an insert adds carry the given keys and ids up to `last_value`. -/
theorem mem_tombstones_insertTombstones {keys : List Key} {x : Tombstone} :
    x ∈ ((st.insertTombstones session p keys).tables p).tombstones →
      x ∈ (st.tables p).tombstones ∨
        x.key ∈ keys ∧ x.i ≤ (st.insertTombstones session p keys).seq.lastValue := by
  intro hx
  simp only [insertTombstones, setTables_tables_self, List.mem_append] at hx
  apply hx.imp id
  intro added
  obtain ⟨y, hy, rfl⟩ := List.mem_map.mp added
  have key : y.1 ∈ (st.seq.stamp session keys).1.map Prod.fst := List.mem_map_of_mem hy
  rw [Sequence.map_fst_stamp] at key
  exact ⟨key, Sequence.stamp_le_lastValue hy⟩

/-- Inserting tombstones adds exactly the given keys. -/
theorem inTombstones_insertTombstones {keys : List Key} {k : Key} :
    ((st.insertTombstones session p keys).tables p).InTombstones k ↔
      (st.tables p).InTombstones k ∨ k ∈ keys := by
  have added : (st.seq.stamp session keys).1.map (fun x => x.1) = keys := Sequence.map_fst_stamp
  simp only [HtapTables.InTombstones, insertTombstones, setTables_tables_self, List.map_append,
    List.mem_append, List.map_map, Function.comp_def, added]

theorem DedicatedAt.insertTombstones (h : st.DedicatedAt p) {keys : List Key} :
    (st.insertTombstones session p keys).DedicatedAt p where
  dedicated := h.dedicated
  htap := h.htap
  skip hview := by
    simp only [Store.insertTombstones, setTables_tables_self] at hview
    exact h.skip hview
  tombstones_le x hx := by
    cases mem_tombstones_insertTombstones hx with
    | inl old => exact (h.tombstones_le x old).trans onlyAt_insertTombstones.seq
    | inr added => exact added.2

/-- Counting tombstones installs the tombstone-aware form: either the count was
`0` and the view is rebuilt, or the view was not in skip form to begin with. -/
theorem DedicatedAt.view_addTombstoneCount (h : st.DedicatedAt p) (n : Int) :
    ((st.addTombstoneCount p n).tables p).view = .tombstoneAware := by
  obtain ⟨r, found, -, -⟩ := h.exists_row
  simp only [Store.addTombstoneCount, found, Option.map_some, Option.getD_some]
  split
  · simp [rebuildHtapView]
  · rename_i nonzero
    cases view : (st.tables p).view with
    | tombstoneAware => simpa using view
    | tombstoneSkip =>
      have := h.skip view
      simp [tombstoneCount, found, nonzero] at this

/-- Apart from the view form, counting tombstones leaves the tables alone. -/
theorem tables_addTombstoneCount (st : Store) (p : TermId) (n : Int) :
    (st.addTombstoneCount p n).tables p =
      { st.tables p with view := ((st.addTombstoneCount p n).tables p).view } := by
  simp only [addTombstoneCount]
  split <;> simp [rebuildHtapView]

theorem DedicatedAt.addTombstoneCount (h : st.DedicatedAt p) {n : Int} :
    (st.addTombstoneCount p n).DedicatedAt p := by
  have aware := h.view_addTombstoneCount n
  have tables := tables_addTombstoneCount st p n
  obtain ⟨r, found, dedicated, isHtap⟩ := h.exists_row
  have row : (st.addTombstoneCount p n).predicates.find? p =
      some { r with tombstoneCount := r.tombstoneCount + n } := by
    simp only [Store.addTombstoneCount]
    split <;> simp [rebuildHtapView, find?_updatePredicate, found]
  have seq : (st.addTombstoneCount p n).seq = st.seq := by
    simp only [Store.addTombstoneCount]
    split <;> rfl
  refine .of_row row dedicated isHtap ?_ ?_
  · intro view
    simp [aware] at view
  · rw [tables, seq]
    exact h.tombstones_le

/-- After the clean-up phase the skip form is installed with an empty table and a
count of `0`, or not at all. -/
theorem DedicatedAt.clearTombstones (h : st.DedicatedAt p) {cfg : Config} {maxSid : Int}
    (aware : (st.tables p).view = .tombstoneAware) :
    (st.clearTombstones cfg maxSid p).DedicatedAt p := by
  have subset : ∀ x ∈ ((st.tables p).clearTombstones cfg maxSid).tombstones,
      x ∈ (st.tables p).tombstones := by
    intro x hx
    simp only [HtapTables.clearTombstones, HtapTables.survivingTombstones] at hx
    split at hx
    · cases hx
    · exact List.mem_of_mem_filter hx
  simp only [Store.clearTombstones]
  split
  · obtain ⟨r, found, dedicated, isHtap⟩ := h.exists_row
    refine .of_row (r := { r with tombstoneCount := 0 }) ?_ dedicated isHtap (fun _ => rfl) ?_
    · simp [find?_updatePredicate, found]
    · intro x hx
      simp only [updatePredicate_tables, setTables_tables_self] at hx
      exact h.tombstones_le x (subset x hx)
  · rename_i left
    refine h.setTables ?_ subset
    intro view
    have stays : ¬ ((st.tables p).survivingTombstones cfg maxSid).isEmpty = true := left
    simp [HtapTables.clearTombstones, stays, aware] at view

end PgRipple.Storage.Store
