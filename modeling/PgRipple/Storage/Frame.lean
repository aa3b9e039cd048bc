import PgRipple.Storage.Graph
import PgRipple.Storage.Merge

/-!
# What an operation leaves alone

Every storage statement works on one predicate. `OnlyAt p st st'` says that a
change stayed there: the catalog row and the tables of all other predicates are
the same, and the sequence did not go back. The relation is a preorder, so an
operation inherits it from its statements, and an invariant that is stated
predicate by predicate only has to be re-established at `p`.
-/

namespace PgRipple.Storage.Store

/-- `st'` differs from `st` at most at predicate `p`, in `vp_rare`, and by a
sequence that advanced. -/
structure OnlyAt (p : TermId) (st st' : Store) : Prop where
  catalog : ∀ p', p' ≠ p → st'.predicates.find? p' = st.predicates.find? p'
  tables : ∀ p', p' ≠ p → st'.tables p' = st.tables p'
  seq : st.seq.lastValue ≤ st'.seq.lastValue

namespace OnlyAt

variable {p : TermId} {st st' st'' : Store}

theorem refl (p : TermId) (st : Store) : OnlyAt p st st :=
  ⟨fun _ _ => rfl, fun _ _ => rfl, le_rfl⟩

/-- A change of `vp_rare` and of the sequence alone. -/
theorem of_eq (p : TermId) (predicates : st'.predicates = st.predicates)
    (tables : st'.tables = st.tables) (seq : st.seq.lastValue ≤ st'.seq.lastValue) :
    OnlyAt p st st' :=
  ⟨fun _ _ => by rw [predicates], fun _ _ => by rw [tables], seq⟩

theorem trans (first : OnlyAt p st st') (second : OnlyAt p st' st'') : OnlyAt p st st'' where
  catalog p' hp := (second.catalog p' hp).trans (first.catalog p' hp)
  tables p' hp := (second.tables p' hp).trans (first.tables p' hp)
  seq := first.seq.trans second.seq

theorem isDedicated (h : OnlyAt p st st') {p' : TermId} (hp : p' ≠ p) :
    st'.isDedicated p' = st.isDedicated p' := by
  rw [Store.isDedicated, Store.isDedicated, h.catalog p' hp]

/-- Quads of other predicates keep their visibility if `vp_rare` agrees on them. -/
theorem visible_iff (h : OnlyAt p st st') {q : Quad} (hp : q.p ≠ p)
    (rare : st'.rare.HasKey q ↔ st.rare.HasKey q) : st'.Visible q ↔ st.Visible q := by
  rw [Visible, Visible, h.isDedicated hp, h.tables q.p hp, rare]

end OnlyAt

variable {p : TermId} {st : Store} {session : Session}

theorem onlyAt_updatePredicate {f : PredicateRow → PredicateRow} :
    OnlyAt p st (st.updatePredicate p f) where
  catalog p' hp := by rw [find?_updatePredicate, if_neg hp]
  tables _ _ := rfl
  seq := le_rfl

theorem onlyAt_setTables {t : HtapTables} : OnlyAt p st (st.setTables p t) where
  catalog _ _ := rfl
  tables _ hp := setTables_tables_of_ne hp
  seq := le_rfl

theorem onlyAt_subtractTripleCount {n : Int} : OnlyAt p st (st.subtractTripleCount p n) := by
  unfold subtractTripleCount
  split
  · exact onlyAt_updatePredicate
  · exact .refl p st

theorem onlyAt_insertTombstones {keys : List Key} :
    OnlyAt p st (st.insertTombstones session p keys) where
  catalog _ _ := rfl
  tables _ hp := setTables_tables_of_ne hp
  seq := Sequence.lastValue_le_stamp

theorem onlyAt_addTombstoneCount {n : Int} : OnlyAt p st (st.addTombstoneCount p n) := by
  simp only [addTombstoneCount]
  split
  · exact onlyAt_updatePredicate.trans onlyAt_setTables
  · exact onlyAt_updatePredicate

theorem onlyAt_upsertRarePredicate {n : Int} : OnlyAt p st (st.upsertRarePredicate p n) where
  catalog p' hp := by simp [upsertRarePredicate, UniqueTable.find?_upsert, hp]
  tables _ _ := rfl
  seq := le_rfl

theorem onlyAt_ensureHtapTables : OnlyAt p st (st.ensureHtapTables p) := by
  refine ⟨?_, ?_, le_rfl⟩
  · intro p' hp
    simp [ensureHtapTables, rebuildHtapView, UniqueTable.find?_upsert, hp]
  · intro p' hp
    exact setTables_tables_of_ne hp

theorem onlyAt_ensureVpTable : OnlyAt p st (st.ensureVpTable p) := by
  rw [ensureVpTable]
  split
  · exact .refl p st
  · exact onlyAt_ensureHtapTables

theorem onlyAt_promotePredicate : OnlyAt p st (st.promotePredicate p) := by
  refine OnlyAt.trans ?_ (onlyAt_setTables.trans onlyAt_updatePredicate)
  exact onlyAt_ensureVpTable.trans (.of_eq p rfl rfl le_rfl)

section Inserts

variable {q : Quad}

theorem onlyAt_insertIntoDelta : OnlyAt q.p st (insertIntoDelta session q st).2 := by
  refine OnlyAt.trans ?_ (onlyAt_setTables.trans onlyAt_updatePredicate)
  exact .of_eq q.p rfl rfl (Sequence.lastValue_le_nextval ..)

theorem onlyAt_insertRareRow : OnlyAt q.p st (insertRareRow session q st).2 :=
  .of_eq q.p rfl rfl (Sequence.lastValue_le_nextval ..)

theorem onlyAt_insertIntoVpRare : OnlyAt q.p st (insertIntoVpRare session q st).2 := by
  simp only [insertIntoVpRare]
  split
  · exact onlyAt_insertRareRow
  · exact onlyAt_insertRareRow.trans onlyAt_upsertRarePredicate

theorem onlyAt_insertTriple {cfg : Config} : OnlyAt q.p st (insertTriple cfg session q st).2 := by
  unfold insertTriple
  split
  · exact onlyAt_insertIntoDelta
  · simp only
    split
    · exact onlyAt_insertIntoVpRare.trans onlyAt_promotePredicate
    · exact onlyAt_insertIntoVpRare

theorem onlyAt_insertEncodedTriple : OnlyAt q.p st (insertEncodedTriple session q st).2 := by
  unfold insertEncodedTriple
  split
  · exact onlyAt_insertIntoDelta
  · exact onlyAt_insertIntoVpRare

theorem onlyAt_batchIntoDelta {keys : List Key} :
    OnlyAt p st (batchIntoDelta session p keys st) := by
  refine OnlyAt.trans ?_ (onlyAt_setTables.trans onlyAt_updatePredicate)
  exact .of_eq p rfl rfl Sequence.lastValue_le_stamp

theorem onlyAt_batchIntoVpRare {keys : List Key} :
    OnlyAt p st (batchIntoVpRare session p keys st) := by
  refine OnlyAt.trans ?_ onlyAt_upsertRarePredicate
  exact .of_eq p rfl rfl Sequence.lastValue_le_stamp

theorem onlyAt_batchInsertEncoded {keys : List Key} :
    OnlyAt p st (batchInsertEncoded session p keys st).2 := by
  unfold batchInsertEncoded
  split
  · exact .refl p st
  split
  · exact onlyAt_batchIntoDelta
  · exact onlyAt_batchIntoVpRare

theorem onlyAt_deleteFromDedicated : OnlyAt q.p st (deleteFromDedicated session q st).2 := by
  simp only [deleteFromDedicated]
  split
  · exact onlyAt_setTables.trans onlyAt_subtractTripleCount
  · exact (onlyAt_insertTombstones.trans onlyAt_addTombstoneCount).trans
      onlyAt_subtractTripleCount

theorem onlyAt_deleteFromVpRare : OnlyAt q.p st (deleteFromVpRare q st).2 := by
  refine OnlyAt.trans ?_ onlyAt_subtractTripleCount
  exact .of_eq q.p rfl rfl le_rfl

theorem onlyAt_deleteQuad : OnlyAt q.p st (deleteQuad session q st).2 := by
  simp only [deleteQuad]
  split
  · exact onlyAt_deleteFromDedicated.trans onlyAt_deleteFromVpRare
  · exact onlyAt_deleteFromVpRare

end Inserts

section Graphs

variable {g : TermId} {acc : Int × Store}

theorem onlyAt_removeGraphRows : OnlyAt p st (removeGraphRows session g p st).2.2 :=
  (onlyAt_setTables.trans onlyAt_insertTombstones).trans onlyAt_subtractTripleCount

theorem onlyAt_clearGraphIn : OnlyAt p acc.2 (clearGraphIn session g acc p).2 := by
  simp only [clearGraphIn]
  split
  · exact onlyAt_removeGraphRows.trans onlyAt_addTombstoneCount
  · exact onlyAt_removeGraphRows

theorem onlyAt_dropGraphIn : OnlyAt p acc.2 (dropGraphIn session g acc p).2 :=
  onlyAt_removeGraphRows

end Graphs

theorem onlyAt_clearTombstones {cfg : Config} {maxSid : Int} :
    OnlyAt p st (st.clearTombstones cfg maxSid p) := by
  simp only [clearTombstones]
  split
  · exact onlyAt_setTables.trans onlyAt_updatePredicate
  · exact onlyAt_setTables

theorem onlyAt_mergePredicate {cfg : Config} : OnlyAt p st (mergePredicate cfg p st).2 := by
  unfold mergePredicate
  split
  · refine OnlyAt.trans ?_ (onlyAt_clearTombstones.trans onlyAt_updatePredicate)
    exact onlyAt_setTables.trans onlyAt_setTables
  · exact .refl p st

end PgRipple.Storage.Store
