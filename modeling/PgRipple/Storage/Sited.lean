import PgRipple.Storage.Ids
import PgRipple.Datalog.Materialise

/-!
# What every writer keeps

`Layout` needs that no row of a dedicated predicate lies in `vp_rare`, and inference does not
care. `Sited` is what is left when inference writes as well: each predicate has all of its tables
or none, and one with rows in `vp_rare` has a catalog row. `drop_graph` keeps it, too.

A statement adds rows to `vp_rare` only together with the catalog row of their predicate, and
catalog rows are never deleted. `Registers` says this of two stores.
-/

namespace PgRipple.Storage.Store

/-- Catalog rows stay, and new rows of `vp_rare` come with one. -/
structure Registers (st st' : Store) : Prop where
  catalog : ∀ p, st.predicates.HasKey p → st'.predicates.HasKey p
  rare : ∀ q, st'.rare.HasKey q → st.rare.HasKey q ∨ st'.predicates.HasKey q.p

/-- Each predicate has all of its tables or none of them. -/
def Arranged (st : Store) : Prop := ∀ p, st.DedicatedAt p ∨ st.UnusedAt p

/-- The tables of every predicate are in order, and `vp_rare` is covered by the catalog. -/
structure Sited (st : Store) : Prop where
  predicate : st.Arranged
  registered : ∀ q, st.rare.HasKey q → st.predicates.HasKey q.p
  seq : st.seq.Positive

variable {st st' st'' : Store} {p p' g : TermId} {q : Quad} {session : Session} {cfg : Config}

@[simp] theorem hasKey_updatePredicate {f : PredicateRow → PredicateRow} :
    (st.updatePredicate p f).predicates.HasKey p' ↔ st.predicates.HasKey p' := by
  simp only [Store.updatePredicate, UniqueTable.hasKey_update]

@[simp] theorem hasKey_subtractTripleCount {n : Int} :
    (st.subtractTripleCount p n).predicates.HasKey p' ↔ st.predicates.HasKey p' := by
  unfold Store.subtractTripleCount
  split
  · exact hasKey_updatePredicate
  · exact Iff.rfl

@[simp] theorem hasKey_addTombstoneCount {n : Int} :
    (st.addTombstoneCount p n).predicates.HasKey p' ↔ st.predicates.HasKey p' := by
  simp only [Store.addTombstoneCount]
  split <;> exact hasKey_updatePredicate

@[simp] theorem hasKey_clearTombstones {maxSid : Int} :
    (st.clearTombstones cfg maxSid p).predicates.HasKey p' ↔ st.predicates.HasKey p' := by
  simp only [Store.clearTombstones]
  split
  · exact hasKey_updatePredicate
  · exact Iff.rfl

/-- Counting rows of `vp_rare` registers their predicate. -/
@[simp] theorem hasKey_upsertRarePredicate {n : Int} :
    (st.upsertRarePredicate p n).predicates.HasKey p' ↔ st.predicates.HasKey p' ∨ p' = p := by
  simp only [Store.upsertRarePredicate, UniqueTable.hasKey_upsert]

theorem hasKey_ensureVpTable (hp' : st.predicates.HasKey p') :
    (st.ensureVpTable p).predicates.HasKey p' := by
  unfold Store.ensureVpTable
  split
  · exact hp'
  · simp only [ensureHtapTables, UniqueTable.hasKey_upsert]
    exact .inl hp'

namespace Registers

theorem refl (st : Store) : Registers st st := ⟨fun _ => id, fun _ => .inl⟩

theorem trans (first : Registers st st') (second : Registers st' st'') : Registers st st'' where
  catalog p hp := second.catalog p (first.catalog p hp)
  rare q hq := by
    obtain old | new := second.rare q hq
    · exact (first.rare q old).imp_right (second.catalog q.p)
    · exact .inr new

/-- A statement that only deletes from `vp_rare`. -/
theorem of_rare (catalog : ∀ p, st.predicates.HasKey p → st'.predicates.HasKey p)
    (rare : ∀ q, st'.rare.HasKey q → st.rare.HasKey q) : Registers st st' :=
  ⟨catalog, fun q hq => .inl (rare q hq)⟩

end Registers

theorem registers_insertIntoDelta : Registers st (insertIntoDelta session q st).2 :=
  .of_rare (fun _ => hasKey_updatePredicate.mpr) fun _ => id

/-- A row that goes into `vp_rare` has a positive id, so the call goes on to the catalog. -/
theorem registers_insertIntoVpRare (seq : st.seq.Positive) :
    Registers st (insertIntoVpRare session q st).2 := by
  have drawn : (st.seq.nextval session).1 ≠ 0 := (seq.nextval session).1.ne'
  by_cases present : st.rare.HasKey q
  · refine .of_rare ?_ ?_
    · simp only [insertIntoVpRare, insertRareRow, present, if_true]
      exact fun _ => id
    · intro q' hq'
      obtain old | new := rare_insertIntoVpRare.mp hq'
      · exact old
      · rwa [new]
  · have same : (insertIntoVpRare session q st).2 =
        (insertRareRow session q st).2.upsertRarePredicate q.p 1 := by
      simp only [insertIntoVpRare, insertRareRow, present, if_false, drawn]
    refine ⟨?_, ?_⟩
    · rw [same]
      exact fun _ hp => hasKey_upsertRarePredicate.mpr (.inl hp)
    · intro q' hq'
      refine (rare_insertIntoVpRare.mp hq').imp_right ?_
      rintro rfl
      rw [same]
      exact hasKey_upsertRarePredicate.mpr (.inr rfl)

theorem registers_promotePredicate : Registers st (st.promotePredicate p) := by
  refine .of_rare ?_ fun _ hq => (rare_promotePredicate.mp hq).1
  intro p' hp'
  exact hasKey_updatePredicate.mpr (hasKey_ensureVpTable hp')

theorem registers_insertTriple (seq : st.seq.Positive) :
    Registers st (insertTriple cfg session q st).2 := by
  unfold insertTriple
  split
  · exact registers_insertIntoDelta
  · have rare : Registers st (insertIntoVpRare session q st).2 := registers_insertIntoVpRare seq
    simp only
    split
    · exact rare.trans registers_promotePredicate
    · exact rare

theorem registers_insertEncodedTriple (seq : st.seq.Positive) :
    Registers st (insertEncodedTriple session q st).2 := by
  unfold insertEncodedTriple
  split
  · exact registers_insertIntoDelta
  · exact registers_insertIntoVpRare seq

theorem registers_batchInsertEncoded {keys : List Key} :
    Registers st (batchInsertEncoded session p keys st).2 := by
  unfold batchInsertEncoded
  split
  · exact .refl st
  split
  · exact .of_rare (fun _ => hasKey_updatePredicate.mpr) fun _ => id
  · refine ⟨fun _ hp => hasKey_upsertRarePredicate.mpr (.inl hp), ?_⟩
    intro q hq
    refine (rare_batchIntoVpRare.mp hq).imp_right ?_
    rintro ⟨rfl, -⟩
    exact hasKey_upsertRarePredicate.mpr (.inr rfl)

theorem registers_deleteQuad : Registers st (deleteQuad session q st).2 := by
  have inTables : Registers st (deleteFromDedicated session q st).2 := by
    refine .of_rare ?_ fun _ hq => by rwa [rare_deleteFromDedicated] at hq
    intro p' hp'
    simp only [deleteFromDedicated]
    split
    · exact hasKey_subtractTripleCount.mpr hp'
    · exact hasKey_subtractTripleCount.mpr (hasKey_addTombstoneCount.mpr hp')
  have inRare (st : Store) : Registers st (deleteFromVpRare q st).2 := by
    refine .of_rare ?_ fun _ hq => (rare_deleteFromVpRare.mp hq).1
    intro p' hp'
    simpa only [deleteFromVpRare, hasKey_subtractTripleCount] using hp'
  simp only [deleteQuad]
  split
  · exact inTables.trans (inRare _)
  · exact inRare st

theorem registers_mergePredicate : Registers st (mergePredicate cfg p st).2 := by
  refine .of_rare ?_ fun _ hq => by rwa [rare_mergePredicate] at hq
  intro p' hp'
  unfold mergePredicate
  split
  · exact hasKey_updatePredicate.mpr (hasKey_clearTombstones.mpr hp')
  · exact hp'

theorem registers_removeGraphRows : Registers st (removeGraphRows session g p st).2.2 := by
  refine .of_rare ?_ fun _ hq => by rwa [rare_removeGraphRows] at hq
  intro p' hp'
  simp only [removeGraphRows, hasKey_subtractTripleCount]
  exact hp'

theorem registers_clearGraphIn {acc : Int × Store} :
    Registers acc.2 (clearGraphIn session g acc p).2 := by
  refine .of_rare ?_ fun _ hq => by rwa [rare_clearGraphIn] at hq
  intro p' hp'
  have removed : (removeGraphRows session g p acc.2).2.2.predicates.HasKey p' :=
    registers_removeGraphRows.catalog p' hp'
  simp only [clearGraphIn]
  split
  · exact hasKey_addTombstoneCount.mpr removed
  · exact removed

/-- A loop registers what its rounds register. -/
theorem registers_fold {step : Int × Store → TermId → Int × Store}
    (round : ∀ acc p, Registers acc.2 (step acc p).2) (ps : List TermId) (acc : Int × Store) :
    Registers acc.2 (ps.foldl step acc).2 := by
  induction ps generalizing acc with
  | nil => exact .refl acc.2
  | cons p ps ih => exact (round acc p).trans (ih (step acc p))

theorem registers_removeGraphFromVpRare {acc : Int × Store} :
    Registers acc.2 (removeGraphFromVpRare g acc).2 :=
  .of_rare (fun _ => id) fun _ hq => (rare_removeGraphFromVpRare.mp hq).1

theorem registers_apply (op : Op) (seq : st.seq.Positive) : Registers st (op.apply st) := by
  cases op with
  | insertTriple cfg session q => exact registers_insertTriple seq
  | insertEncodedTriple session q => exact registers_insertEncodedTriple seq
  | batchInsertEncoded session p keys => exact registers_batchInsertEncoded
  | deleteTriple session q => exact registers_deleteQuad
  | deleteTripleByIds session q => exact registers_deleteQuad
  | promotePredicate p => exact registers_promotePredicate
  | mergePredicate cfg p => exact registers_mergePredicate
  | clearGraphById session g =>
    exact (registers_fold (fun _ _ => registers_clearGraphIn) _ (0, st)).trans
      registers_removeGraphFromVpRare
  | dropGraph session g =>
    have round (acc : Int × Store) (p : TermId) :
        Registers acc.2 (dropGraphIn session g acc p).2 := registers_removeGraphRows
    exact (registers_fold round _ (0, st)).trans registers_removeGraphFromVpRare

namespace Arranged

theorem dedicatedAt (h : st.Arranged) (hp : st.isDedicated p = true) : st.DedicatedAt p := by
  refine (h p).resolve_right ?_
  intro unused
  rw [unused.dedicated] at hp
  cases hp

theorem unusedAt (h : st.Arranged) (hp : st.isDedicated p = false) : st.UnusedAt p := by
  refine (h p).resolve_left ?_
  intro used
  rw [used.dedicated] at hp
  cases hp

/-- A change confined to `p` has to be looked at there only. -/
theorem of_onlyAt (h : st.Arranged) (only : OnlyAt p st st')
    (here : st'.DedicatedAt p ∨ st'.UnusedAt p) : st'.Arranged := by
  intro p'
  by_cases hp : p' = p
  · exact hp ▸ here
  · exact (h p').imp (·.of_onlyAt only hp) (·.of_onlyAt only hp)

/-- Neither the rows of `vp_rare` nor the sequence matter. -/
theorem of_eq (h : st.Arranged) (predicates : st'.predicates = st.predicates)
    (tables : st'.tables = st.tables) (seq : st.seq.lastValue ≤ st'.seq.lastValue) :
    st'.Arranged := by
  intro p
  refine (h p).imp ?_ ?_
  · intro used
    exact used.of_eq predicates (congrFun tables p) seq
  · intro unused
    refine ⟨?_, ?_, ?_⟩
    · rw [isDedicated, predicates]
      exact unused.dedicated
    · rw [isHtap, predicates]
      exact unused.htap
    · rw [tables]
      exact unused.tables

theorem insertEncodedTriple (h : st.Arranged) :
    (insertEncodedTriple session q st).2.Arranged := by
  refine h.of_onlyAt onlyAt_insertEncodedTriple ?_
  unfold Store.insertEncodedTriple
  split
  · rename_i hp
    exact .inl (h.dedicatedAt hp).insertIntoDelta
  · rename_i hp
    exact .inr (h.unusedAt (by simpa using hp)).insertIntoVpRare

theorem insertTriple (h : st.Arranged) : (insertTriple cfg session q st).2.Arranged := by
  refine h.of_onlyAt onlyAt_insertTriple ?_
  unfold Store.insertTriple
  split
  · rename_i hp
    exact .inl (h.dedicatedAt hp).insertIntoDelta
  · rename_i hp
    have rare : (insertIntoVpRare session q st).2.UnusedAt q.p :=
      (h.unusedAt (by simpa using hp)).insertIntoVpRare
    simp only
    split
    · exact .inl (dedicatedAt_promotePredicate (.inr rare))
    · exact .inr rare

theorem batchInsertEncoded {keys : List Key} (h : st.Arranged) :
    (batchInsertEncoded session p keys st).2.Arranged := by
  refine h.of_onlyAt onlyAt_batchInsertEncoded ?_
  unfold Store.batchInsertEncoded
  split
  · exact h p
  split
  · rename_i hp
    exact .inl (h.dedicatedAt hp).batchIntoDelta
  · rename_i hp
    have old : st.UnusedAt p := h.unusedAt (by simpa using hp)
    refine .inr (UnusedAt.upsertRarePredicate ?_)
    exact ⟨old.dedicated, old.htap, old.tables⟩

theorem deleteQuad (h : st.Arranged) : (deleteQuad session q st).2.Arranged :=
  h.of_onlyAt onlyAt_deleteQuad ((h q.p).imp (·.deleteQuad) (·.deleteQuad))

theorem promotePredicate (h : st.Arranged) (p : TermId) : (st.promotePredicate p).Arranged :=
  h.of_onlyAt onlyAt_promotePredicate (.inl (dedicatedAt_promotePredicate (h p)))

theorem mergePredicate (h : st.Arranged) (cfg : Config) (p : TermId) :
    (mergePredicate cfg p st).2.Arranged := by
  refine h.of_onlyAt onlyAt_mergePredicate ((h p).imp (·.mergePredicate) ?_)
  intro unused
  rw [unused.mergePredicate_eq]
  exact unused

/-- A loop over the dedicated predicates, whose rounds each keep their predicate dedicated. -/
theorem fold {β : Type*} (step : β × Store → TermId → β × Store) {acc : β × Store}
    (h : acc.2.Arranged) (only : ∀ acc p, OnlyAt p acc.2 (step acc p).2)
    (here : ∀ acc p, acc.2.DedicatedAt p → (step acc p).2.DedicatedAt p) :
    (acc.2.dedicatedPredicates.foldl step acc).2.Arranged := by
  have kept : ∀ p,
      (acc.2.DedicatedAt p → (acc.2.dedicatedPredicates.foldl step acc).2.DedicatedAt p) ∧
      (acc.2.UnusedAt p → (acc.2.dedicatedPredicates.foldl step acc).2.UnusedAt p) := by
    refine List.foldlRecOn (motive := fun mid : β × Store =>
      ∀ p, (acc.2.DedicatedAt p → mid.2.DedicatedAt p) ∧ (acc.2.UnusedAt p → mid.2.UnusedAt p))
      _ _ (fun _ => ⟨id, id⟩) ?_
    intro mid ih x hx p
    have dedicated : acc.2.isDedicated x = true := mem_dedicatedPredicates.mp hx
    by_cases same : p = x
    · subst same
      refine ⟨fun used => here mid p ((ih p).1 used), ?_⟩
      intro unused
      rw [unused.dedicated] at dedicated
      cases dedicated
    · exact ⟨fun used => ((ih p).1 used).of_onlyAt (only mid x) same,
        fun unused => ((ih p).2 unused).of_onlyAt (only mid x) same⟩
  intro p
  exact (h p).imp (kept p).1 (kept p).2

/-- Every storage operation keeps the tables in order, wherever inference has put its triples. -/
theorem apply (h : st.Arranged) (op : Op) : (op.apply st).Arranged := by
  cases op with
  | insertTriple cfg session q => exact h.insertTriple
  | insertEncodedTriple session q => exact h.insertEncodedTriple
  | batchInsertEncoded session p keys => exact h.batchInsertEncoded
  | deleteTriple session q => exact h.deleteQuad
  | deleteTripleByIds session q => exact h.deleteQuad
  | promotePredicate p => exact h.promotePredicate p
  | mergePredicate cfg p => exact h.mergePredicate cfg p
  | clearGraphById session g =>
    have start : ((0, st) : Int × Store).2.Arranged := h
    exact (start.fold (clearGraphIn session g) (fun _ _ => onlyAt_clearGraphIn)
      fun _ _ used => used.clearGraphIn).of_eq rfl rfl le_rfl
  | dropGraph session g =>
    have start : ((0, st) : Int × Store).2.Arranged := h
    exact (start.fold (dropGraphIn session g) (fun _ _ => onlyAt_dropGraphIn)
      fun _ _ used => used.removeGraphRows).of_eq rfl rfl le_rfl

end Arranged

theorem arranged_initial : initial.Arranged := fun _ => .inr ⟨rfl, rfl, rfl⟩

namespace Sited

theorem dedicatedAt (h : st.Sited) (hp : st.isDedicated p = true) : st.DedicatedAt p :=
  h.predicate.dedicatedAt hp

theorem registered_of_registers (h : st.Sited) (registers : Registers st st') :
    ∀ q, st'.rare.HasKey q → st'.predicates.HasKey q.p := by
  intro q hq
  obtain old | new := registers.rare q hq
  · exact registers.catalog q.p (h.registered q old)
  · exact new

/-- A change confined to `p` has to be looked at there only. -/
theorem of_onlyAt (h : st.Sited) (only : OnlyAt p st st') (registers : Registers st st')
    (seq : st'.seq.Positive) (here : st'.DedicatedAt p ∨ st'.UnusedAt p) : st'.Sited where
  predicate := h.predicate.of_onlyAt only here
  registered := h.registered_of_registers registers
  seq := seq

theorem apply (h : st.Sited) (op : Op) : (op.apply st).Sited where
  predicate := h.predicate.apply op
  registered := h.registered_of_registers (registers_apply op h.seq)
  seq := (later_apply op).positive h.seq

end Sited

theorem sited_initial : initial.Sited where
  predicate := arranged_initial
  registered q hq := absurd hq (UniqueTable.not_hasKey_empty q)
  seq := Sequence.positive_initial

theorem hasKey_of_tableOid (oid : st.tableOid p ≠ none) : st.predicates.HasKey p := by
  by_contra absent
  rw [tableOid, UniqueTable.find?_eq_none_iff.mpr absent] at oid
  exact oid rfl

/-- Triples that inference finds are counted with the first new row. -/
theorem registers_materialisePred {found : List Quad} {acc : Int × Store} :
    Registers acc.2 (Datalog.materialisePred session found acc p).2 := by
  have catalog (p' : TermId) (hp' : acc.2.predicates.HasKey p') :
      (Datalog.materialisePred session found acc p).2.predicates.HasKey p' := by
    rw [Datalog.materialisePred_eq]
    dsimp only
    split
    · exact hasKey_upsertRarePredicate.mpr (.inl hp')
    · exact hp'
  refine ⟨catalog, ?_⟩
  intro q hq
  by_cases present : acc.2.rare.HasKey q
  · exact .inl present
  · obtain ⟨new, same⟩ := (Datalog.rare_materialisePred.mp hq).resolve_left present
    rw [same]
    exact .inr (hasKey_of_tableOid (Datalog.tableOid_materialisePred new same present))

theorem Sited.materialisePred {found : List Quad} {acc : Int × Store} (h : acc.2.Sited) :
    (Datalog.materialisePred session found acc p).2.Sited :=
  h.of_onlyAt Datalog.onlyAt_materialisePred registers_materialisePred
    (Datalog.positive_materialisePred h.seq) (Datalog.here_materialisePred (h.predicate p))

end PgRipple.Storage.Store
