import PgRipple.Storage.Insert
import PgRipple.Storage.Delete
import PgRipple.Storage.MergeEffect

/-!
# Where the rows of a predicate lie

`Layout` says that `vp_rare` holds no rows of a dedicated predicate. Inference
breaks that, since it inserts into `vp_rare` whatever the layout of the predicate.
`Placement` is what remains true as long as a row of a dedicated predicate in
`vp_rare` only repeats a triple that the predicate's view shows anyway. It also
says that a predicate with rows in `vp_rare` has a catalog row, which a reader
needs in order to look there at all.

`Tidy` is the part of it that no writer breaks: each predicate has all of its tables or
none of them, and a view that skips the tombstones has none to skip.
-/

namespace PgRipple.Storage.Store

/-- `SELECT table_oid FROM _pg_ripple.predicates WHERE id = $1`: no row, or whether
the column holds a table. -/
def tableOid (st : Store) (p : TermId) : Option Bool :=
  (st.predicates.find? p).map PredicateRow.hasTable

/-- Rows lie where readers of a single place find them. -/
structure Placement (st : Store) : Prop where
  predicate : ∀ p, st.DedicatedAt p ∨ st.UnusedAt p
  clean : ∀ p, (st.tables p).view = .tombstoneSkip → (st.tables p).tombstones = []
  seq : st.seq.Positive
  registered : ∀ q, st.rare.HasKey q → st.tableOid q.p ≠ none
  shown : ∀ q, st.rare.HasKey q → st.isDedicated q.p = true → (st.tables q.p).Shows q.key

/-- The tables of every predicate are in order, wherever its rows lie. -/
structure Tidy (st : Store) : Prop where
  predicate : ∀ p, st.DedicatedAt p ∨ st.UnusedAt p
  clean : ∀ p, (st.tables p).view = .tombstoneSkip → (st.tables p).tombstones = []

variable {st st' : Store} {p p' : TermId} {session : Session} {q : Quad}

theorem isDedicated_eq_tableOid : st.isDedicated p = (st.tableOid p).any id := by
  rw [isDedicated, tableOid]
  cases st.predicates.find? p <;> rfl

theorem isDedicated_iff_tableOid : st.isDedicated p = true ↔ st.tableOid p = some true := by
  rw [isDedicated_eq_tableOid]
  cases st.tableOid p <;> simp

theorem OnlyAt.tableOid (only : OnlyAt p st st') (hp : p' ≠ p) :
    st'.tableOid p' = st.tableOid p' := by
  rw [Store.tableOid, Store.tableOid, only.catalog p' hp]

theorem tableOid_updatePredicate {f : PredicateRow → PredicateRow}
    (layout : ∀ r, (f r).hasTable = r.hasTable) :
    (st.updatePredicate p f).tableOid p' = st.tableOid p' := by
  rw [tableOid, tableOid, find?_updatePredicate]
  split
  · cases st.predicates.find? p' with
    | none => rfl
    | some r => simp [layout]
  · rfl

theorem tableOid_subtractTripleCount {n : Int} :
    (st.subtractTripleCount p n).tableOid p' = st.tableOid p' := by
  rw [subtractTripleCount]
  split
  · exact tableOid_updatePredicate fun _ => rfl
  · rfl

theorem tableOid_addTombstoneCount {n : Int} :
    (st.addTombstoneCount p n).tableOid p' = st.tableOid p' := by
  simp only [addTombstoneCount]
  split <;> exact tableOid_updatePredicate fun _ => rfl

theorem tableOid_insertIntoDelta :
    (insertIntoDelta session q st).2.tableOid p' = st.tableOid p' := by
  simp only [insertIntoDelta, addTripleCount]
  exact tableOid_updatePredicate fun _ => rfl

theorem tableOid_deleteQuad : (deleteQuad session q st).2.tableOid p' = st.tableOid p' := by
  have rare (st : Store) : (deleteFromVpRare q st).2.tableOid p' = st.tableOid p' :=
    tableOid_subtractTripleCount
  simp only [deleteQuad, rare]
  split
  · simp only [deleteFromDedicated]
    split
    · exact tableOid_subtractTripleCount
    · rw [tableOid_subtractTripleCount, tableOid_addTombstoneCount]
      rfl
  · rfl

/-- Counting rows of `vp_rare` registers the predicate and does not move it. -/
theorem tableOid_upsertRarePredicate {n : Int} :
    (st.upsertRarePredicate p n).tableOid p' =
      if p' = p then some ((st.tableOid p').getD false) else st.tableOid p' := by
  simp only [tableOid, upsertRarePredicate, UniqueTable.find?_upsert]
  split
  · cases st.predicates.find? p' <;> rfl
  · rfl

/-- An insert into `vp_rare` registers the predicate unless the quad is there. -/
theorem tableOid_insertIntoVpRare (seq : st.seq.Positive) :
    (insertIntoVpRare session q st).2.tableOid q.p =
      if st.rare.HasKey q then st.tableOid q.p else some ((st.tableOid q.p).getD false) := by
  have drawn : (st.seq.nextval session).1 ≠ 0 := (seq.nextval session).1.ne'
  by_cases present : st.rare.HasKey q
  · simp only [insertIntoVpRare, insertRareRow, present, if_true]
    rfl
  · simp only [insertIntoVpRare, insertRareRow, present, if_false, drawn,
      tableOid_upsertRarePredicate, if_true]
    rfl

/-- A change confined to `p` has to be looked at there only. -/
theorem Tidy.of_onlyAt (h : st.Tidy) (only : OnlyAt p st st')
    (here : st'.DedicatedAt p ∨ st'.UnusedAt p)
    (clean : (st'.tables p).view = .tombstoneSkip → (st'.tables p).tombstones = []) :
    st'.Tidy where
  predicate p' := by
    by_cases hp : p' = p
    · exact hp ▸ here
    · exact (h.predicate p').imp (·.of_onlyAt only hp) (·.of_onlyAt only hp)
  clean p' := by
    by_cases hp : p' = p
    · exact hp ▸ clean
    · rw [only.tables p' hp]
      exact h.clean p'

theorem Tidy.dedicatedAt (h : st.Tidy) (hp : st.isDedicated p = true) : st.DedicatedAt p := by
  refine (h.predicate p).resolve_right ?_
  intro unused
  rw [unused.dedicated] at hp
  cases hp

theorem Tidy.unusedAt (h : st.Tidy) (hp : st.isDedicated p = false) : st.UnusedAt p := by
  refine (h.predicate p).resolve_left ?_
  intro used
  rw [used.dedicated] at hp
  cases hp

theorem UnusedAt.clean (h : st.UnusedAt p) :
    (st.tables p).view = .tombstoneSkip → (st.tables p).tombstones = [] := by
  rw [h.tables]
  intro view
  cases view

theorem tidy_initial : initial.Tidy where
  predicate _ := .inr ⟨rfl, rfl, rfl⟩
  clean _ _ := rfl

theorem Tidy.insertIntoDelta (h : st.Tidy) (hp : st.isDedicated q.p = true) :
    (insertIntoDelta session q st).2.Tidy := by
  refine h.of_onlyAt onlyAt_insertIntoDelta (.inl (h.dedicatedAt hp).insertIntoDelta) ?_
  rw [tables_insertIntoDelta]
  exact h.clean q.p

theorem Tidy.insertIntoVpRare (h : st.Tidy) (hp : st.isDedicated q.p = false) :
    (insertIntoVpRare session q st).2.Tidy := by
  have unused : (Store.insertIntoVpRare session q st).2.UnusedAt q.p :=
    (h.unusedAt hp).insertIntoVpRare
  exact h.of_onlyAt onlyAt_insertIntoVpRare (.inr unused) unused.clean

theorem tables_ensureHtapTables :
    (st.ensureHtapTables p).tables p = { st.tables p with view := .tombstoneAware } := by
  simp [ensureHtapTables, rebuildHtapView]

theorem Tidy.dedicatedAt_ensureHtapTables (h : st.Tidy) :
    (st.ensureHtapTables p).DedicatedAt p := by
  cases h.predicate p with
  | inl used =>
    obtain ⟨r, row, dedicated, htap⟩ := used.exists_row
    refine .of_row (r := { r with hasTable := true, htap := true }) ?_ rfl rfl ?_ ?_
    · simp [Store.ensureHtapTables, rebuildHtapView, UniqueTable.find?_upsert, row]
    · rw [tables_ensureHtapTables]
      intro view
      cases view
    · rw [tables_ensureHtapTables]
      exact used.tombstones_le
  | inr unused =>
    have created := dedicatedAt_ensureVpTable (.inr unused)
    rwa [ensureVpTable, if_neg (by simp [unused.dedicated])] at created

theorem Tidy.ensureHtapTables (h : st.Tidy) : (st.ensureHtapTables p).Tidy := by
  refine h.of_onlyAt onlyAt_ensureHtapTables (.inl h.dedicatedAt_ensureHtapTables) ?_
  rw [tables_ensureHtapTables]
  intro view
  cases view

/-- New tables are empty, and a view that joins the tombstones shows what one that skips them
showed. -/
theorem Tidy.visible_ensureHtapTables (h : st.Tidy) :
    (st.ensureHtapTables p).Visible q ↔ st.Visible q := by
  have rare : (st.ensureHtapTables p).rare = st.rare := rfl
  rw [Visible, Visible, rare]
  refine or_congr_left ?_
  by_cases same : q.p = p
  · have shows : ((st.ensureHtapTables p).tables q.p).Shows q.key ↔
        (st.tables q.p).Shows q.key := by
      rw [HtapTables.shows_iff_of_clean (h.ensureHtapTables.clean q.p),
        HtapTables.shows_iff_of_clean (h.clean q.p), same, tables_ensureHtapTables]
      exact Iff.rfl
    rw [shows, same, h.dedicatedAt_ensureHtapTables.dedicated]
    refine and_congr_left fun shown => ?_
    cases h.predicate p with
    | inl used => rw [used.dedicated]
    | inr unused =>
      rw [unused.tables] at shown
      exact absurd shown (HtapTables.not_shows_fresh _)
  · rw [onlyAt_ensureHtapTables.isDedicated same, onlyAt_ensureHtapTables.tables q.p same]

theorem Tidy.ensureVpTable (h : st.Tidy) : (st.ensureVpTable p).Tidy := by
  unfold Store.ensureVpTable
  split
  · exact h
  · exact h.ensureHtapTables

theorem Tidy.visible_ensureVpTable (h : st.Tidy) :
    (st.ensureVpTable p).Visible q ↔ st.Visible q := by
  unfold Store.ensureVpTable
  split
  · exact Iff.rfl
  · exact h.visible_ensureHtapTables

theorem Tidy.promotePredicate (h : st.Tidy) : (st.promotePredicate p).Tidy := by
  refine h.of_onlyAt onlyAt_promotePredicate
    (.inl (dedicatedAt_promotePredicate (h.predicate p))) ?_
  rw [tables_promotePredicate (h.predicate p)]
  exact h.clean p

theorem Tidy.insertTriple {cfg : Config} (h : st.Tidy) :
    (insertTriple cfg session q st).2.Tidy := by
  rw [Store.insertTriple]
  split
  · rename_i hp
    exact h.insertIntoDelta hp
  · rename_i hp
    have rare : (Store.insertIntoVpRare session q st).2.Tidy :=
      h.insertIntoVpRare (by simpa using hp)
    simp only
    split
    · exact rare.promotePredicate
    · exact rare

theorem Tidy.insertEncodedTriple (h : st.Tidy) : (insertEncodedTriple session q st).2.Tidy := by
  rw [Store.insertEncodedTriple]
  split
  · rename_i hp
    exact h.insertIntoDelta hp
  · rename_i hp
    exact h.insertIntoVpRare (by simpa using hp)

theorem Tidy.deleteQuad (h : st.Tidy) : (deleteQuad session q st).2.Tidy := by
  refine h.of_onlyAt onlyAt_deleteQuad ((h.predicate q.p).imp (·.deleteQuad) (·.deleteQuad)) ?_
  cases h.predicate q.p with
  | inl used =>
    rw [tables_deleteQuad_of_dedicated used.dedicated]
    by_cases present : (st.tables q.p).InDelta q.key
    · rw [tables_deleteFromDedicated_of_inDelta present]
      exact h.clean q.p
    · rw [used.tables_deleteFromDedicated present]
      intro view
      cases view
  | inr unused => exact unused.deleteQuad.clean

theorem Tidy.mergePredicate {cfg : Config} (h : st.Tidy) : (mergePredicate cfg p st).2.Tidy := by
  cases h.predicate p with
  | inl used =>
    refine h.of_onlyAt onlyAt_mergePredicate (.inl used.mergePredicate) ?_
    rw [used.tables_mergePredicate]
    intro _
    rfl
  | inr unused =>
    rw [unused.mergePredicate_eq]
    exact h

theorem Placement.tidy (h : st.Placement) : st.Tidy := ⟨h.predicate, h.clean⟩

/-- A change confined to `p` keeps the placement once it is re-established there. -/
theorem Placement.of_onlyAt (h : st.Placement) (only : OnlyAt p st st') (tidy : st'.Tidy)
    (seq : st'.seq.Positive) (others : ∀ q : Quad, q.p ≠ p → st'.rare.HasKey q → st.rare.HasKey q)
    (registered : ∀ q : Quad, q.p = p → st'.rare.HasKey q → st'.tableOid p ≠ none)
    (shown : ∀ q : Quad, q.p = p → st'.rare.HasKey q → st'.isDedicated p = true →
      (st'.tables p).Shows q.key) : st'.Placement where
  predicate := tidy.predicate
  clean := tidy.clean
  seq := seq
  registered q hq := by
    by_cases hp : q.p = p
    · rw [hp]
      exact registered q hp hq
    · rw [only.tableOid hp]
      exact h.registered q (others q hp hq)
  shown q hq := by
    by_cases hp : q.p = p
    · rw [hp]
      exact shown q hp hq
    · rw [only.isDedicated hp, only.tables q.p hp]
      exact h.shown q (others q hp hq)

theorem placement_initial : initial.Placement where
  predicate := tidy_initial.predicate
  clean := tidy_initial.clean
  seq := Sequence.positive_initial
  registered q hq := absurd hq (UniqueTable.not_hasKey_empty q)
  shown q hq := absurd hq (UniqueTable.not_hasKey_empty q)

theorem DedicatedAt.tableOid (h : st.DedicatedAt p) : st.tableOid p ≠ none := by
  rw [isDedicated_iff_tableOid.mp h.dedicated]
  exact Option.some_ne_none _

/-- An insert into `delta` adds one triple to the view. -/
theorem shows_insertIntoDelta {k : Key} :
    ((insertIntoDelta session q st).2.tables q.p).Shows k ↔
      (st.tables q.p).Shows k ∨ k = q.key := by
  rw [tables_insertIntoDelta, HtapTables.shows_iff, HtapTables.shows_iff]
  simp only [HtapTables.InDelta, UniqueTable.hasKey_upsert, ← or_assoc]
  exact Iff.rfl

theorem Placement.insertIntoDelta (h : st.Placement) (hp : st.isDedicated q.p = true) :
    (insertIntoDelta session q st).2.Placement := by
  have used : (Store.insertIntoDelta session q st).2.DedicatedAt q.p :=
    (h.tidy.dedicatedAt hp).insertIntoDelta
  refine h.of_onlyAt onlyAt_insertIntoDelta (h.tidy.insertIntoDelta hp) (h.seq.nextval session).2
    (fun _ _ hq => hq) (fun _ _ _ => used.tableOid) ?_
  intro q' same hq' _
  rw [shows_insertIntoDelta, ← same]
  exact .inl (h.shown q' hq' (by rw [same, hp]))

theorem seq_insertIntoVpRare :
    (insertIntoVpRare session q st).2.seq = (st.seq.nextval session).2 := by
  simp only [insertIntoVpRare]
  split <;> rfl

theorem Placement.insertIntoVpRare (h : st.Placement) (hp : st.isDedicated q.p = false) :
    (insertIntoVpRare session q st).2.Placement := by
  have unused : (Store.insertIntoVpRare session q st).2.UnusedAt q.p :=
    (h.tidy.unusedAt hp).insertIntoVpRare
  refine h.of_onlyAt onlyAt_insertIntoVpRare (h.tidy.insertIntoVpRare hp) ?_ ?_ ?_ ?_
  · rw [seq_insertIntoVpRare]
    exact (h.seq.nextval session).2
  · intro q' other hq'
    refine (rare_insertIntoVpRare.mp hq').resolve_right ?_
    intro same
    exact other (congrArg Quad.p same)
  · intro q' same hq'
    rw [tableOid_insertIntoVpRare h.seq]
    split
    · rename_i present
      exact h.registered q present
    · exact Option.some_ne_none _
  · intro q' _ _ dedicated
    rw [unused.dedicated] at dedicated
    cases dedicated

theorem seq_promotePredicate : (st.promotePredicate p).seq = st.seq := by
  simp only [promotePredicate, updatePredicate_seq, setTables_seq, ensureVpTable]
  split <;> rfl

theorem Placement.promotePredicate (h : st.Placement) : (st.promotePredicate p).Placement := by
  have used := dedicatedAt_promotePredicate (h.predicate p)
  refine h.of_onlyAt onlyAt_promotePredicate h.tidy.promotePredicate ?_ ?_
    (fun _ _ _ => used.tableOid) ?_
  · rw [seq_promotePredicate]
    exact h.seq
  · intro q _ hq
    exact (rare_promotePredicate.mp hq).1
  · intro q same hq
    exact absurd same (rare_promotePredicate.mp hq).2

theorem Placement.insertTriple {cfg : Config} (h : st.Placement) :
    (insertTriple cfg session q st).2.Placement := by
  rw [Store.insertTriple]
  split
  · rename_i hp
    exact h.insertIntoDelta hp
  · rename_i hp
    have rare : (Store.insertIntoVpRare session q st).2.Placement :=
      h.insertIntoVpRare (by simpa using hp)
    simp only
    split
    · exact rare.promotePredicate
    · exact rare

theorem seq_deleteFromDedicated (h : st.seq.Positive) :
    (deleteFromDedicated session q st).2.seq.Positive := by
  have subtract (st : Store) (n : Int) : (st.subtractTripleCount q.p n).seq = st.seq := by
    rw [subtractTripleCount]
    split <;> rfl
  have count (st : Store) (n : Int) : (st.addTombstoneCount q.p n).seq = st.seq := by
    simp only [addTombstoneCount]
    split <;> rfl
  simp only [deleteFromDedicated]
  split
  · rw [subtract]
    exact h
  · rw [subtract, count]
    have drawn : (st.seq.stamp session [q.key]).2.Positive := h.stamp
    exact drawn

theorem seq_deleteQuad (h : st.seq.Positive) : (deleteQuad session q st).2.seq.Positive := by
  have rare (st : Store) : (deleteFromVpRare q st).2.seq = st.seq := by
    simp only [deleteFromVpRare, subtractTripleCount]
    split <;> rfl
  simp only [deleteQuad, rare]
  split
  · exact seq_deleteFromDedicated h
  · exact h

/-- A delete leaves the other triples of its predicate in the view. -/
theorem Placement.shows_deleteQuad (h : st.Placement) (hp : st.isDedicated q.p = true) {k : Key}
    (other : k ≠ q.key) (shown : (st.tables q.p).Shows k) :
    ((Store.deleteQuad session q st).2.tables q.p).Shows k := by
  by_cases present : (st.tables q.p).InDelta q.key
  · rw [shows_deleteQuad_of_inDelta hp present]
    exact (HtapTables.shows_iff.mp shown).imp id fun delta => ⟨delta, other⟩
  · rw [(h.tidy.dedicatedAt hp).shows_deleteQuad present]
    exact ((HtapTables.shows_iff_of_clean (h.clean q.p)).mp shown).imp
      (fun main => ⟨main.1, main.2, other⟩) id

theorem Placement.deleteQuad (h : st.Placement) : (deleteQuad session q st).2.Placement := by
  refine h.of_onlyAt onlyAt_deleteQuad h.tidy.deleteQuad (seq_deleteQuad h.seq) ?_ ?_ ?_
  · intro q' _ hq'
    exact (rare_deleteQuad.mp hq').1
  · intro q' same hq'
    rw [tableOid_deleteQuad, ← same]
    exact h.registered q' (rare_deleteQuad.mp hq').1
  · intro q' same hq' dedicated
    obtain ⟨old, other⟩ := rare_deleteQuad.mp hq'
    have before : st.isDedicated q.p = true := by
      rwa [isDedicated_eq_tableOid, tableOid_deleteQuad, ← isDedicated_eq_tableOid] at dedicated
    refine h.shows_deleteQuad before (fun key => other (Quad.ext_key same key)) ?_
    rw [← same]
    exact h.shown q' old (by rw [same, before])

theorem seq_mergePredicate {cfg : Config} : (mergePredicate cfg p st).2.seq = st.seq := by
  rw [mergePredicate]
  split
  · simp only [setTripleCount, updatePredicate_seq, clearTombstones]
    split <;> rfl
  · rfl

theorem Placement.mergePredicate {cfg : Config} (h : st.Placement) :
    (mergePredicate cfg p st).2.Placement := by
  cases h.predicate p with
  | inl used =>
    have kept : (Store.mergePredicate cfg p st).2.DedicatedAt p := used.mergePredicate
    refine h.of_onlyAt onlyAt_mergePredicate h.tidy.mergePredicate ?_ ?_
      (fun _ _ _ => kept.tableOid) ?_
    · rw [seq_mergePredicate]
      exact h.seq
    · intro q _ hq
      rwa [rare_mergePredicate] at hq
    · intro q same hq _
      rw [rare_mergePredicate] at hq
      rw [used.tables_mergePredicate, HtapTables.shows_merged (h.clean p), ← same]
      exact h.shown q hq (by rw [same, used.dedicated])
  | inr unused =>
    rw [unused.mergePredicate_eq]
    exact h

end PgRipple.Storage.Store
