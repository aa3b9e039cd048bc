import PgRipple.Storage.Invariant

/-!
# What emptying a graph does

Both graph operations run a loop over the dedicated predicates. Each round stays
at its own predicate and each predicate comes up once, so the effect of the loop
on a predicate is the effect of its one round. `fold_onlyAt` states this for any
such loop; the rest of the module describes the rounds.
-/

namespace PgRipple.Storage.Store

/-- Two stores have the same catalog row and tables for `p`. -/
structure AgreeAt (p : TermId) (st st' : Store) : Prop where
  catalog : st'.predicates.find? p = st.predicates.find? p
  tables : st'.tables p = st.tables p

theorem OnlyAt.agreeAt {p p' : TermId} {st st' : Store} (h : OnlyAt p st st') (hp : p' ≠ p) :
    AgreeAt p' st st' := ⟨h.catalog p' hp, h.tables p' hp⟩

theorem AgreeAt.trans {p : TermId} {st st' st'' : Store} (first : AgreeAt p st st')
    (second : AgreeAt p st' st'') : AgreeAt p st st'' :=
  ⟨second.catalog.trans first.catalog, second.tables.trans first.tables⟩

section Loop

variable {β : Type*} {step : β × Store → TermId → β × Store}

/-- A loop whose rounds each stay at their predicate leaves the others alone. -/
theorem fold_agreeAt (only : ∀ acc p, OnlyAt p acc.2 (step acc p).2) (ps : List TermId)
    (acc : β × Store) {p : TermId} (hp : p ∉ ps) : AgreeAt p acc.2 (ps.foldl step acc).2 := by
  induction ps generalizing acc with
  | nil => exact ⟨rfl, rfl⟩
  | cons x xs ih =>
    obtain ⟨other, later⟩ := not_or.mp (List.mem_cons.not.mp hp)
    exact ((only acc x).agreeAt other).trans (ih (step acc x) later)

/-- In a loop over distinct predicates, what happens to `p` is its own round, run
from a store that still agrees with the first one at `p` and satisfies the loop
invariant. -/
theorem fold_onlyAt (only : ∀ acc p, OnlyAt p acc.2 (step acc p).2) (good : Store → Prop)
    (ps : List TermId) (nodup : ps.Nodup) (acc : β × Store) (start : good acc.2)
    (keeps : ∀ acc p, p ∈ ps → good acc.2 → good (step acc p).2) {p : TermId} (hp : p ∈ ps) :
    ∃ mid : β × Store, good mid.2 ∧ AgreeAt p acc.2 mid.2 ∧
      AgreeAt p (step mid p).2 (ps.foldl step acc).2 := by
  induction ps generalizing acc with
  | nil => cases hp
  | cons x xs ih =>
    obtain ⟨fresh, nodup⟩ := List.nodup_cons.mp nodup
    by_cases same : p = x
    · subst same
      exact ⟨acc, start, ⟨rfl, rfl⟩, fold_agreeAt only xs (step acc p) fresh⟩
    · have later := (List.mem_cons.mp hp).resolve_left same
      obtain ⟨mid, hmid, before, after⟩ := ih nodup (step acc x)
        (keeps acc x List.mem_cons_self start)
        (fun acc y hy => keeps acc y (List.mem_cons_of_mem _ hy)) later
      exact ⟨mid, hmid, ((only acc x).agreeAt same).trans before, after⟩

end Loop

variable {st : Store} {p : TermId} {session : Session} {g : TermId} {acc : Int × Store}

/-- The rows of `main` that belong to the graph. -/
def graphKeys (t : HtapTables) (g : TermId) : List Key :=
  (t.main.filter fun r => r.key.g = g).map Row.key

@[simp] theorem mem_graphKeys {t : HtapTables} {k : Key} :
    k ∈ graphKeys t g ↔ t.InMain k ∧ k.g = g := by
  simp only [graphKeys, HtapTables.InMain, List.mem_map, List.mem_filter, decide_eq_true_eq]
  constructor
  · rintro ⟨r, ⟨hr, hg⟩, same⟩
    exact ⟨⟨r, hr, same⟩, same ▸ hg⟩
  · rintro ⟨⟨r, hr, same⟩, hg⟩
    exact ⟨r, ⟨hr, by rw [same]; exact hg⟩, same⟩

/-- What a round does to the tables, the view form aside. -/
structure GraphRemoved (g : TermId) (t t' : HtapTables) : Prop where
  main : t'.main = t.main
  inDelta : ∀ k, t'.InDelta k ↔ t.InDelta k ∧ k.g ≠ g
  inTombstones : ∀ k, t'.InTombstones k ↔ t.InTombstones k ∨ (t.InMain k ∧ k.g = g)

theorem graphRemoved_removeGraphRows :
    GraphRemoved g (st.tables p) ((removeGraphRows session g p st).2.2.tables p) := by
  have tables : (removeGraphRows session g p st).2.2.tables p =
      (insertTombstones session p (graphKeys (st.tables p) g) (st.setTables p
        { st.tables p with
          delta := (st.tables p).delta.deleteWhere fun r => r.key.g = g })).tables p := by
    simp only [removeGraphRows, subtractTripleCount_tables, graphKeys]
  have deleted (k : Key) := UniqueTable.hasKey_deleteWhere (t := (st.tables p).delta) (k := k)
    fun x => decide (x.g = g)
  rw [tables]
  refine ⟨?_, ?_, ?_⟩
  · simp [tables_insertTombstones]
  · intro k
    simpa [tables_insertTombstones, HtapTables.InDelta] using deleted k
  · intro k
    rw [inTombstones_insertTombstones, mem_graphKeys]
    simp [HtapTables.InTombstones]

theorem view_removeGraphRows :
    ((removeGraphRows session g p st).2.2.tables p).view = (st.tables p).view := by
  simp [removeGraphRows, tables_insertTombstones]

theorem removeGraphRows_main_count :
    (removeGraphRows session g p st).2.1 = (graphKeys (st.tables p) g).length := rfl

theorem DedicatedAt.removeGraphRows (h : st.DedicatedAt p) :
    (removeGraphRows session g p st).2.2.DedicatedAt p :=
  (h.setDelta _).insertTombstones.subtractTripleCount

theorem rare_removeGraphRows : (removeGraphRows session g p st).2.2.rare = st.rare := by
  simp [removeGraphRows, insertTombstones]

theorem isDedicated_removeGraphRows {p' : TermId} :
    (removeGraphRows session g p st).2.2.isDedicated p' = st.isDedicated p' := by
  simp only [removeGraphRows, isDedicated_subtractTripleCount]
  rfl

theorem graphRemoved_clearGraphIn :
    GraphRemoved g (acc.2.tables p) ((clearGraphIn session g acc p).2.tables p) := by
  have removed : GraphRemoved g (acc.2.tables p)
      ((removeGraphRows session g p acc.2).2.2.tables p) := graphRemoved_removeGraphRows
  simp only [clearGraphIn]
  split
  · rw [tables_addTombstoneCount]
    exact ⟨removed.main, removed.inDelta, removed.inTombstones⟩
  · exact removed

/-- Clearing a graph with main rows leaves the tombstone-aware view; otherwise the
form is the one before. -/
theorem DedicatedAt.view_clearGraphIn (h : acc.2.DedicatedAt p) :
    ((clearGraphIn session g acc p).2.tables p).view =
      if graphKeys (acc.2.tables p) g = [] then (acc.2.tables p).view else .tombstoneAware := by
  have removed : (Store.removeGraphRows session g p acc.2).2.2.DedicatedAt p := h.removeGraphRows
  have positive : 0 < (Store.removeGraphRows session g p acc.2).2.1 ↔
      graphKeys (acc.2.tables p) g ≠ [] := by
    rw [removeGraphRows_main_count, Int.natCast_pos, List.length_pos_iff]
  simp only [clearGraphIn, positive, ite_not]
  split
  · exact view_removeGraphRows
  · exact removed.view_addTombstoneCount _

theorem DedicatedAt.clearGraphIn (h : acc.2.DedicatedAt p) :
    (clearGraphIn session g acc p).2.DedicatedAt p := by
  simp only [Store.clearGraphIn]
  split
  · exact h.removeGraphRows.addTombstoneCount
  · exact h.removeGraphRows

theorem rare_clearGraphIn : (clearGraphIn session g acc p).2.rare = acc.2.rare := by
  simp only [clearGraphIn]
  split
  · rw [addTombstoneCount_rare, rare_removeGraphRows]
  · exact rare_removeGraphRows

theorem isDedicated_clearGraphIn {p' : TermId} :
    (clearGraphIn session g acc p).2.isDedicated p' = acc.2.isDedicated p' := by
  simp only [clearGraphIn]
  split
  · rw [isDedicated_addTombstoneCount, isDedicated_removeGraphRows]
  · exact isDedicated_removeGraphRows

/-- What the loops keep: the layout, the catalog's layout column and `vp_rare`. -/
structure SameLayout (st st' : Store) : Prop where
  layout : st'.Layout
  isDedicated : ∀ p, st'.isDedicated p = st.isDedicated p
  rare : st'.rare = st.rare

theorem SameLayout.clearGraphIn (h : SameLayout st acc.2) (hp : st.isDedicated p = true) :
    SameLayout st (clearGraphIn session g acc p).2 where
  layout := by
    have dedicated : acc.2.isDedicated p = true := (h.isDedicated p).trans hp
    refine h.layout.of_dedicatedAt onlyAt_clearGraphIn dedicated
      (h.layout.dedicatedAt dedicated).clearGraphIn ?_
    intro q hq
    rwa [rare_clearGraphIn] at hq
  isDedicated p' := isDedicated_clearGraphIn.trans (h.isDedicated p')
  rare := rare_clearGraphIn.trans h.rare

theorem SameLayout.dropGraphIn (h : SameLayout st acc.2) (hp : st.isDedicated p = true) :
    SameLayout st (dropGraphIn session g acc p).2 where
  layout := by
    have dedicated : acc.2.isDedicated p = true := (h.isDedicated p).trans hp
    refine h.layout.of_dedicatedAt onlyAt_dropGraphIn dedicated
      (h.layout.dedicatedAt dedicated).removeGraphRows ?_
    intro q hq
    rwa [Store.dropGraphIn, rare_removeGraphRows] at hq
  isDedicated p' := isDedicated_removeGraphRows.trans (h.isDedicated p')
  rare := rare_removeGraphRows.trans h.rare

section Loops

variable {step : Int × Store → TermId → Int × Store}

/-- A loop over the dedicated predicates whose rounds keep the layout keeps it. -/
theorem Layout.sameLayout_fold (h : st.Layout)
    (keeps : ∀ acc p, st.isDedicated p = true → SameLayout st acc.2 →
      SameLayout st (step acc p).2) :
    SameLayout st (st.dedicatedPredicates.foldl step (0, st)).2 := by
  refine List.foldlRecOn (motive := fun acc : Int × Store => SameLayout st acc.2) _ _
    ⟨h, fun _ => rfl, rfl⟩ ?_
  intro acc kept p hp
  exact keeps acc p (mem_dedicatedPredicates.mp hp) kept

/-- The round of such a loop that is responsible for `p`. -/
theorem Layout.exists_round (h : st.Layout) (step : Int × Store → TermId → Int × Store)
    (only : ∀ acc p, OnlyAt p acc.2 (step acc p).2)
    (keeps : ∀ acc p, st.isDedicated p = true → SameLayout st acc.2 →
      SameLayout st (step acc p).2) (hp : st.isDedicated p = true) :
    ∃ mid : Int × Store, mid.2.DedicatedAt p ∧ AgreeAt p st mid.2 ∧
      AgreeAt p (step mid p).2 (st.dedicatedPredicates.foldl step (0, st)).2 := by
  obtain ⟨mid, good, before, after⟩ := fold_onlyAt only (SameLayout st) st.dedicatedPredicates
    st.nodup_dedicatedPredicates (0, st) ⟨h, fun _ => rfl, rfl⟩
    (fun acc x hx kept => keeps acc x (mem_dedicatedPredicates.mp hx) kept)
    (mem_dedicatedPredicates.mpr hp)
  exact ⟨mid, good.layout.dedicatedAt ((good.isDedicated p).trans hp), before, after⟩

end Loops

/-- The effect of `clear_graph_by_id` on a dedicated predicate. -/
theorem Layout.clearGraphById_effect (h : st.Layout) (session : Session) (g : TermId)
    (hp : st.isDedicated p = true) :
    GraphRemoved g (st.tables p) ((clearGraphById session g st).2.tables p) ∧
      ((clearGraphById session g st).2.tables p).view =
        if graphKeys (st.tables p) g = [] then (st.tables p).view else .tombstoneAware := by
  obtain ⟨mid, dedicated, before, after⟩ := h.exists_round
    (Store.clearGraphIn session g) (fun _ _ => onlyAt_clearGraphIn)
    (fun _ _ hx kept => kept.clearGraphIn hx) hp
  change GraphRemoved g _ ((st.dedicatedPredicates.foldl _ (0, st)).2.tables p) ∧
    ((st.dedicatedPredicates.foldl _ (0, st)).2.tables p).view = _
  rw [after.tables, ← before.tables]
  exact ⟨graphRemoved_clearGraphIn, dedicated.view_clearGraphIn⟩

/-- The effect of `drop_graph` on a dedicated predicate: the view form stays. -/
theorem Layout.dropGraph_effect (h : st.Layout) (session : Session) (g : TermId)
    (hp : st.isDedicated p = true) :
    GraphRemoved g (st.tables p) ((dropGraph session g st).2.tables p) ∧
      ((dropGraph session g st).2.tables p).view = (st.tables p).view := by
  obtain ⟨mid, dedicated, before, after⟩ := h.exists_round
    (Store.dropGraphIn session g) (fun _ _ => onlyAt_dropGraphIn)
    (fun _ _ hx kept => kept.dropGraphIn hx) hp
  change GraphRemoved g _ ((st.dedicatedPredicates.foldl _ (0, st)).2.tables p) ∧
    ((st.dedicatedPredicates.foldl _ (0, st)).2.tables p).view = _
  rw [after.tables, ← before.tables]
  exact ⟨graphRemoved_removeGraphRows, view_removeGraphRows⟩

/-- The last statement of both operations. -/
theorem rare_removeGraphFromVpRare {q : Quad} :
    (removeGraphFromVpRare g acc).2.rare.HasKey q ↔ acc.2.rare.HasKey q ∧ q.g ≠ g := by
  have deleted := UniqueTable.hasKey_deleteWhere (t := acc.2.rare) (k := q)
    fun x => decide (x.g = g)
  simpa [removeGraphFromVpRare] using deleted

theorem SameLayout.removeGraphFromVpRare (h : SameLayout st acc.2) :
    (removeGraphFromVpRare g acc).2.Layout where
  predicate p := (h.layout.predicate p).imp
    (fun used => used.of_eq rfl rfl le_rfl) fun unused =>
    ⟨unused.dedicated, unused.htap, unused.tables⟩
  rare q hq := h.layout.rare q (rare_removeGraphFromVpRare.mp hq).1

theorem Layout.sameLayout_clearGraph (h : st.Layout) :
    SameLayout st (st.dedicatedPredicates.foldl (clearGraphIn session g) (0, st)).2 :=
  h.sameLayout_fold fun _ _ hx kept => kept.clearGraphIn hx

theorem Layout.sameLayout_dropGraph (h : st.Layout) :
    SameLayout st (st.dedicatedPredicates.foldl (dropGraphIn session g) (0, st)).2 :=
  h.sameLayout_fold fun _ _ hx kept => kept.dropGraphIn hx

theorem Layout.clearGraphById (h : st.Layout) : (clearGraphById session g st).2.Layout :=
  h.sameLayout_clearGraph.removeGraphFromVpRare

theorem Layout.dropGraph (h : st.Layout) : (dropGraph session g st).2.Layout :=
  h.sameLayout_dropGraph.removeGraphFromVpRare

theorem Inv.clearGraphById (h : st.Inv) : (clearGraphById session g st).2.Inv where
  toLayout := h.toLayout.clearGraphById
  clean p := by
    cases h.predicate p with
    | inl used =>
      obtain ⟨removed, view⟩ := h.toLayout.clearGraphById_effect session g used.dedicated
      intro skip
      rw [view] at skip
      split at skip
      · rename_i none
        have clean := HtapTables.tombstones_eq_nil_iff.mp (h.clean p skip)
        refine HtapTables.tombstones_eq_nil_iff.mpr ?_
        intro k
        rw [removed.inTombstones, ← mem_graphKeys, none]
        simp [clean k]
      · cases skip
    | inr unused =>
      have absent : p ∉ st.dedicatedPredicates := by
        rw [mem_dedicatedPredicates, unused.dedicated]
        simp
      have same : (Store.clearGraphById session g st).2.tables p = st.tables p :=
        (fold_agreeAt (fun _ _ => onlyAt_clearGraphIn) _ _ absent).tables
      rw [same]
      exact h.clean p

/-- Visibility after a graph operation: a dedicated predicate is read through its
tables, and `vp_rare` has lost the rows of the graph. -/
theorem SameLayout.visible_removeGraphFromVpRare (h : SameLayout st acc.2) (q : Quad) :
    (Store.removeGraphFromVpRare g acc).2.Visible q ↔
      (st.isDedicated q.p = true ∧ (acc.2.tables q.p).Shows q.key) ∨
        (st.rare.HasKey q ∧ q.g ≠ g) := by
  rw [Visible, rare_removeGraphFromVpRare, h.rare, ← h.isDedicated]
  exact Iff.rfl

theorem Layout.visible_clearGraphById (h : st.Layout) (q : Quad) :
    (Store.clearGraphById session g st).2.Visible q ↔
      (st.isDedicated q.p = true ∧ ((Store.clearGraphById session g st).2.tables q.p).Shows q.key) ∨
        (st.rare.HasKey q ∧ q.g ≠ g) :=
  h.sameLayout_clearGraph.visible_removeGraphFromVpRare q

theorem Layout.visible_dropGraph (h : st.Layout) (q : Quad) :
    (Store.dropGraph session g st).2.Visible q ↔
      (st.isDedicated q.p = true ∧ ((Store.dropGraph session g st).2.tables q.p).Shows q.key) ∨
        (st.rare.HasKey q ∧ q.g ≠ g) :=
  h.sameLayout_dropGraph.visible_removeGraphFromVpRare q

end PgRipple.Storage.Store
