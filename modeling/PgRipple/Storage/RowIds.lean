import PgRipple.Storage.Ids

/-!
# The statement ids of a quad's rows

A quad can have one row in `vp_rare`, one in `delta` and any number in `main`. This module says
which ids these rows carry after each operation. `SameRows` is the case of an operation that is not
about the quad: its rows, and whether a tombstone hides it, stay as they are, and the view does not
begin to skip tombstones.

`Owned` is what makes an id a name: an id on a row is not handed out again, belongs to one quad, and
is not on two rows of different tables.
-/

namespace PgRipple.Storage.Store

/-- The id of the quad's row in `delta`. -/
def deltaId (st : Store) (q : Quad) : Option Int :=
  ((st.tables q.p).delta.find? q.key).map Row.i

/-- The id of the quad's row in `vp_rare`. -/
def rareId (st : Store) (q : Quad) : Option Int := (st.rare.find? q).map RareRow.i

/-- A row of `main` has the quad's columns and this id. -/
def MainId (st : Store) (q : Quad) (i : Int) : Prop :=
  ∃ r ∈ (st.tables q.p).main, r.key = q.key ∧ r.i = i

/-- The quad has a tombstone. -/
def Tombstoned (st : Store) (q : Quad) : Prop := (st.tables q.p).InTombstones q.key

/-- The view of the quad's predicate reads `main` without looking at tombstones. -/
def Skips (st : Store) (q : Quad) : Prop := (st.tables q.p).view = .tombstoneSkip

/-- Some row stores the quad under this id. -/
def Carries (st : Store) (q : Quad) (i : Int) : Prop :=
  st.deltaId q = some i ∨ st.rareId q = some i ∨ st.MainId q i

variable {st st' st'' : Store} {p g : TermId} {q q' : Quad} {i : Int} {session : Session}

theorem deltaId_eq_some_iff : st.deltaId q = some i ↔
    ∃ r ∈ (st.tables q.p).delta.rows, r.key = q.key ∧ r.i = i := by
  simp only [deltaId, Option.map_eq_some_iff, UniqueTable.find?_eq_some_iff, and_assoc]

theorem rareId_eq_some_iff : st.rareId q = some i ↔
    ∃ r ∈ st.rare.rows, r.quad = q ∧ r.i = i := by
  simp only [rareId, Option.map_eq_some_iff, UniqueTable.find?_eq_some_iff, and_assoc]

theorem rareId_eq_none_iff : st.rareId q = none ↔ ¬ st.rare.HasKey q := by
  rw [rareId, Option.map_eq_none_iff, UniqueTable.find?_eq_none_iff]

/-- An operation that leaves the rows of the quad alone. -/
structure SameRows (q : Quad) (st st' : Store) : Prop where
  delta : st'.deltaId q = st.deltaId q
  rare : st'.rareId q = st.rareId q
  main : ∀ i, st'.MainId q i ↔ st.MainId q i
  tombstones : st'.Tombstoned q ↔ st.Tombstoned q
  skips : st'.Skips q → st.Skips q

theorem SameRows.refl (q : Quad) (st : Store) : SameRows q st st :=
  ⟨rfl, rfl, fun _ => Iff.rfl, Iff.rfl, id⟩

theorem SameRows.trans (first : SameRows q st st') (second : SameRows q st' st'') :
    SameRows q st st'' where
  delta := second.delta.trans first.delta
  rare := second.rare.trans first.rare
  main i := (second.main i).trans (first.main i)
  tombstones := second.tombstones.trans first.tombstones
  skips skip := first.skips (second.skips skip)

/-- Rows of other predicates are only touched in `vp_rare`. -/
theorem OnlyAt.sameRows (h : OnlyAt p st st') (other : q.p ≠ p)
    (rare : st'.rare.find? q = st.rare.find? q) : SameRows q st st' := by
  refine ⟨?_, ?_, ?_, ?_, ?_⟩
  · rw [deltaId, h.tables q.p other, deltaId]
  · rw [rareId, rare, rareId]
  · intro i
    rw [MainId, h.tables q.p other, MainId]
  · rw [Tombstoned, h.tables q.p other, Tombstoned]
  · intro skip
    rwa [Skips, h.tables q.p other] at skip

/-- A change of `delta` alone, which keeps the row of the quad. -/
theorem SameRows.of_delta (delta : UniqueTable Row.key)
    (tables : st'.tables q.p = { st.tables q.p with delta := delta })
    (row : delta.find? q.key = (st.tables q.p).delta.find? q.key)
    (rare : st'.rare.find? q = st.rare.find? q) : SameRows q st st' := by
  refine ⟨?_, ?_, ?_, ?_, ?_⟩
  · rw [deltaId, tables, deltaId, row]
  · rw [rareId, rare, rareId]
  · intro i
    rw [MainId, tables, MainId]
  · rw [Tombstoned, tables, Tombstoned]
    exact Iff.rfl
  · intro skip
    rwa [Skips, tables] at skip

theorem find?_upsertDelta {delta : UniqueTable Row.key} {k k' : Key} :
    (delta.upsert ⟨k, i, 0⟩ (fun r => { r with i := i }) fun _ => rfl).find? k' =
      if k' = k then some (((delta.find? k').map fun r => { r with i := i }).getD ⟨k, i, 0⟩)
      else delta.find? k' := by
  rw [UniqueTable.find?_upsert]

/-- The upsert writes the drawn id, whether or not the quad had a row. -/
theorem deltaId_insertIntoDelta (session : Session) (q : Quad) (st : Store) :
    (insertIntoDelta session q st).2.deltaId q = some (st.seq.nextval session).1 := by
  rw [deltaId, tables_insertIntoDelta, find?_upsertDelta, if_pos rfl]
  cases (st.tables q.p).delta.find? q.key <;> rfl

theorem main_insertIntoDelta (session : Session) (q : Quad) (st : Store) (i : Int) :
    ((insertIntoDelta session q st).2.MainId q i ↔ st.MainId q i) ∧
      ((insertIntoDelta session q st).2.Tombstoned q ↔ st.Tombstoned q) ∧
      ((insertIntoDelta session q st).2.Skips q ↔ st.Skips q) := by
  simp only [MainId, Tombstoned, Skips, tables_insertIntoDelta, HtapTables.InTombstones,
    and_self]

theorem sameRows_insertIntoDelta (other : q' ≠ q) :
    SameRows q' st (insertIntoDelta session q st).2 := by
  by_cases same : q'.p = q.p
  · have key : q'.key ≠ q.key := fun h => other (Quad.ext_key same h)
    refine SameRows.of_delta ((st.tables q'.p).delta.upsert
      ⟨q.key, (st.seq.nextval session).1, 0⟩
      (fun r => { r with i := (st.seq.nextval session).1 }) fun _ => rfl) ?_ ?_ rfl
    · rw [same]
      exact tables_insertIntoDelta session q st
    · rw [find?_upsertDelta, if_neg key]
  · exact onlyAt_insertIntoDelta.sameRows same rfl

theorem rare_insertRareRow :
    (insertIntoVpRare session q st).2.rare =
      st.rare.insertNew ⟨q, (st.seq.nextval session).1, 0⟩ := by
  simp only [insertIntoVpRare]
  split
  · rfl
  · rfl

@[simp] theorem tables_insertIntoVpRare : (insertIntoVpRare session q st).2.tables = st.tables := by
  simp only [insertIntoVpRare]
  split
  · rfl
  · rfl

theorem SameRows.of_rare (tables : st'.tables = st.tables)
    (rare : st'.rare.find? q = st.rare.find? q) : SameRows q st st' :=
  .of_delta (st.tables q.p).delta (by rw [tables]) rfl rare

/-- A quad that is in `vp_rare` keeps its row. -/
theorem sameRows_insertIntoVpRare (kept : q' ≠ q ∨ st.rare.HasKey q') :
    SameRows q' st (insertIntoVpRare session q st).2 := by
  refine .of_rare tables_insertIntoVpRare ?_
  rw [rare_insertRareRow, UniqueTable.find?_insertNew]
  split
  · rename_i same
    have present : st.rare.HasKey q' := kept.resolve_left (not_not.mpr same)
    cases found : st.rare.find? q' with
    | none => exact absurd present (UniqueTable.find?_eq_none_iff.mp found)
    | some r => rfl
  · rfl

theorem rareId_insertIntoVpRare (fresh : ¬ st.rare.HasKey q) :
    (insertIntoVpRare session q st).2.rareId q = some (st.seq.nextval session).1 := by
  rw [rareId, rare_insertRareRow, UniqueTable.find?_insertNew, if_pos rfl,
    UniqueTable.find?_eq_none_iff.mpr fresh]
  rfl

/-- The id that a batch draws for the first copy of a key. -/
def firstStamp (session : Session) (keys : List Key) (k : Key) (st : Store) : Option Int :=
  ((st.seq.stamp session keys).1.find? fun x => x.1 = k).map Prod.snd

theorem mem_of_firstStamp {keys : List Key} {k : Key}
    (h : firstStamp session keys k st = some i) : (k, i) ∈ (st.seq.stamp session keys).1 := by
  obtain ⟨x, found, rfl⟩ := Option.map_eq_some_iff.mp h
  have same : x.1 = k := by simpa using List.find?_some found
  rw [← same]
  exact List.mem_of_find?_eq_some found

theorem firstStamp_eq_none_iff {keys : List Key} {k : Key} :
    firstStamp session keys k st = none ↔ k ∉ keys := by
  have drawn : (st.seq.stamp session keys).1.map Prod.fst = keys := Sequence.map_fst_stamp
  rw [firstStamp, Option.map_eq_none_iff, List.find?_eq_none]
  constructor
  · intro none member
    rw [← drawn] at member
    obtain ⟨x, hx, same⟩ := List.mem_map.mp member
    exact none x hx (decide_eq_true same)
  · intro absent x hx same
    apply absent
    rw [← of_decide_eq_true same, ← drawn]
    exact List.mem_map_of_mem hx

/-- A batch gives a quad without a row the first id drawn for it. -/
theorem deltaId_batchIntoDelta {keys : List Key} (hp : q.p = p) :
    (batchIntoDelta session p keys st).deltaId q =
      (st.deltaId q).or (firstStamp session keys q.key st) := by
  subst hp
  rw [deltaId, tables_batchIntoDelta, deltaId, firstStamp]
  dsimp only
  rw [UniqueTable.find?_insertAll, List.find?_map]
  cases (st.tables q.p).delta.find? q.key with
  | some r => rfl
  | none =>
    simp only [Option.none_or, Option.map_none, Option.map_map, Function.comp_def]

theorem main_batchIntoDelta (session : Session) (keys : List Key) (st : Store) (i : Int)
    (hp : q.p = p) :
    ((batchIntoDelta session p keys st).MainId q i ↔ st.MainId q i) ∧
      ((batchIntoDelta session p keys st).Tombstoned q ↔ st.Tombstoned q) ∧
      ((batchIntoDelta session p keys st).Skips q ↔ st.Skips q) := by
  subst hp
  simp only [MainId, Tombstoned, Skips, tables_batchIntoDelta, HtapTables.InTombstones,
    and_self]

theorem sameRows_batchIntoDelta {keys : List Key}
    (kept : q.p = p → q.key ∈ keys → st.deltaId q ≠ none) :
    SameRows q st (batchIntoDelta session p keys st) := by
  by_cases hp : q.p = p
  · have row : (batchIntoDelta session p keys st).deltaId q = st.deltaId q := by
      rw [deltaId_batchIntoDelta hp]
      cases old : st.deltaId q with
      | some i => rfl
      | none =>
        rw [Option.none_or, firstStamp_eq_none_iff]
        exact fun member => kept hp member old
    have main (i : Int) := main_batchIntoDelta session keys st i hp
    exact ⟨row, rfl, fun i => (main i).1, (main 0).2.1, (main 0).2.2.mp⟩
  · exact onlyAt_batchIntoDelta.sameRows hp rfl

/-- The quads that a batch into `vp_rare` draws ids for. -/
def newQuads (st : Store) (p : TermId) (keys : List Key) : List Quad :=
  (keys.eraseDups.map (Key.quad · p)).filter fun q => ¬ st.rare.HasKey q

theorem rare_batchIntoVpRare_eq {keys : List Key} :
    (batchIntoVpRare session p keys st).rare = st.rare.insertAll
      ((st.seq.stamp session (st.newQuads p keys)).1.map fun x => ⟨x.1, x.2, 0⟩) := rfl

theorem sameRows_batchIntoVpRare {keys : List Key}
    (kept : q.p = p → q.key ∈ keys → st.rare.HasKey q) :
    SameRows q st (batchIntoVpRare session p keys st) := by
  refine .of_rare rfl ?_
  rw [rare_batchIntoVpRare_eq, UniqueTable.find?_insertAll]
  cases old : st.rare.find? q with
  | some r => rfl
  | none =>
    rw [Option.none_or, List.find?_eq_none]
    intro r hr same
    obtain ⟨x, hx, rfl⟩ := List.mem_map.mp hr
    have drawn : (st.seq.stamp session (st.newQuads p keys)).1.map Prod.fst =
        st.newQuads p keys := Sequence.map_fst_stamp
    have member : x.1 ∈ st.newQuads p keys := by
      rw [← drawn]
      exact List.mem_map_of_mem hx
    have named : x.1 = q := of_decide_eq_true same
    rw [named] at member
    obtain ⟨listed, -⟩ := List.mem_filter.mp member
    obtain ⟨k, hk, rfl⟩ := List.mem_map.mp listed
    exact UniqueTable.find?_eq_none_iff.mp old (kept rfl (List.mem_eraseDups.mp hk))

theorem rare_promotePredicate_eq : (st.promotePredicate p).rare =
    st.rare.deleteWhere fun r => decide (r.quad.p = p) := by
  simp only [promotePredicate, updatePredicate_rare, setTables_rare, rare_ensureVpTable]

theorem rareId_promotePredicate :
    (st.promotePredicate p).rareId q = if q.p = p then none else st.rareId q := by
  have deleted := UniqueTable.find?_deleteWhere (t := st.rare) (k := q) fun q => decide (q.p = p)
  rw [rareId, rare_promotePredicate_eq, deleted]
  by_cases hp : q.p = p
  · simp [hp]
  · simp [hp, rareId]

/-- The rows of `vp_rare` keep their ids when they move. -/
theorem Layout.deltaId_promotePredicate (h : st.Layout) (hp : q.p = p) :
    (st.promotePredicate p).deltaId q = (st.deltaId q).or (st.rareId q) := by
  subst hp
  have moved : (st.rareRowsOf q.p).find? (fun r => r.key = q.key) =
      (st.rare.find? q).map fun r => ⟨r.quad.key, r.i, r.source⟩ := by
    rw [rareRowsOf, List.find?_map, List.find?_filter, UniqueTable.find?]
    congr 2
    funext r
    simp only [Function.comp_apply, decide_eq_true_eq, decide_eq_decide]
    constructor
    · rintro ⟨hp, hk⟩
      exact Quad.ext_key hp hk
    · rintro rfl
      exact ⟨rfl, rfl⟩
  rw [deltaId, tables_promotePredicate (h.predicate q.p), deltaId, rareId]
  dsimp only
  rw [UniqueTable.find?_insertAll, moved]
  cases (st.tables q.p).delta.find? q.key with
  | some r => rfl
  | none => simp [Function.comp_def]

theorem Layout.main_promotePredicate (h : st.Layout) (hp : q.p = p) :
    ((st.promotePredicate p).MainId q i ↔ st.MainId q i) ∧
      ((st.promotePredicate p).Tombstoned q ↔ st.Tombstoned q) ∧
      ((st.promotePredicate p).Skips q ↔ st.Skips q) := by
  subst hp
  simp only [MainId, Tombstoned, Skips, tables_promotePredicate (h.predicate q.p),
    HtapTables.InTombstones, and_self]

theorem sameRows_promotePredicate (other : q.p ≠ p) : SameRows q st (st.promotePredicate p) := by
  refine onlyAt_promotePredicate.sameRows other ?_
  have deleted := UniqueTable.find?_deleteWhere (t := st.rare) (k := q) fun q => decide (q.p = p)
  rw [rare_promotePredicate_eq, deleted]
  simp [other]

/-- An operation that adds no row to the quad. -/
structure FewerRows (q : Quad) (st st' : Store) : Prop where
  delta : ∀ i, st'.deltaId q = some i → st.deltaId q = some i
  rare : ∀ i, st'.rareId q = some i → st.rareId q = some i
  main : ∀ i, st'.MainId q i → st.MainId q i

theorem SameRows.fewerRows (h : SameRows q st st') : FewerRows q st st' :=
  ⟨fun _ row => h.delta ▸ row, fun _ row => h.rare ▸ row, fun i => (h.main i).mp⟩

theorem FewerRows.trans (first : FewerRows q st st') (second : FewerRows q st' st'') :
    FewerRows q st st'' :=
  ⟨fun i row => first.delta i (second.delta i row), fun i row => first.rare i (second.rare i row),
    fun i row => first.main i (second.main i row)⟩

theorem sameRows_subtractTripleCount {n : Int} : SameRows q st (st.subtractTripleCount p n) :=
  .of_rare (subtractTripleCount_tables st p n) (by rw [subtractTripleCount_rare])

/-- Counting tombstones can only switch the view to the form that looks at them. -/
theorem sameRows_addTombstoneCount {n : Int} : SameRows q st (st.addTombstoneCount p n) := by
  by_cases hp : q.p = p
  · subst hp
    have tables := tables_addTombstoneCount st q.p n
    refine ⟨?_, ?_, ?_, ?_, ?_⟩
    · rw [deltaId, tables, deltaId]
    · rw [rareId, addTombstoneCount_rare, rareId]
    · intro i
      rw [MainId, tables, MainId]
    · rw [Tombstoned, tables, Tombstoned]
      exact Iff.rfl
    · simp only [Skips, addTombstoneCount]
      split
      · simp [rebuildHtapView]
      · exact id
  · exact onlyAt_addTombstoneCount.sameRows hp (by rw [addTombstoneCount_rare])

theorem sameRows_insertTombstones {keys : List Key} (other : q.p = p → q.key ∉ keys) :
    SameRows q st (st.insertTombstones session p keys) := by
  by_cases hp : q.p = p
  · subst hp
    have tables := tables_insertTombstones session q.p keys st
    refine ⟨?_, rfl, ?_, ?_, ?_⟩
    · rw [deltaId, tables, deltaId]
    · intro i
      rw [MainId, tables, MainId]
    · rw [Tombstoned, inTombstones_insertTombstones]
      exact or_iff_left (other rfl)
    · intro skip
      rwa [Skips, tables] at skip
  · exact onlyAt_insertTombstones.sameRows hp rfl

theorem fewerRows_insertTombstones {keys : List Key} :
    FewerRows q st (st.insertTombstones session p keys) := by
  by_cases hp : q.p = p
  · subst hp
    have tables := tables_insertTombstones session q.p keys st
    refine ⟨?_, fun _ row => row, ?_⟩
    · intro i
      rw [deltaId, tables]
      exact id
    · intro i
      rw [MainId, tables]
      exact id
  · exact (onlyAt_insertTombstones.sameRows hp rfl).fewerRows

/-- `DELETE FROM delta`, by a condition on the columns of a quad. -/
def deleteDelta (st : Store) (p : TermId) (byKey : Key → Bool) : Store :=
  st.setTables p
    { st.tables p with delta := (st.tables p).delta.deleteWhere fun r => byKey r.key }

theorem deltaId_deleteDelta {byKey : Key → Bool} :
    (st.deleteDelta p byKey).deltaId q =
      if q.p = p ∧ byKey q.key = true then none else st.deltaId q := by
  by_cases hp : q.p = p
  · subst hp
    rw [deltaId, deleteDelta, setTables_tables_self]
    dsimp only
    rw [UniqueTable.find?_deleteWhere byKey]
    by_cases gone : byKey q.key = true
    · simp [gone]
    · simp [gone, deltaId]
  · rw [deltaId, deleteDelta, setTables_tables_of_ne hp, if_neg fun both => hp both.1, deltaId]

theorem sameRows_deleteDelta {byKey : Key → Bool} (kept : q.p = p → byKey q.key = false) :
    SameRows q st (st.deleteDelta p byKey) := by
  by_cases hp : q.p = p
  · subst hp
    refine .of_delta _ (setTables_tables_self (p := q.p)) ?_ rfl
    rw [UniqueTable.find?_deleteWhere byKey, kept rfl]
    simp
  · exact onlyAt_setTables.sameRows hp rfl

theorem fewerRows_deleteDelta {byKey : Key → Bool} : FewerRows q st (st.deleteDelta p byKey) := by
  refine ⟨?_, fun _ row => row, ?_⟩
  · intro i
    rw [deltaId_deleteDelta]
    split
    · simp
    · exact id
  · intro i
    by_cases hp : q.p = p
    · subst hp
      rw [MainId, deleteDelta, setTables_tables_self]
      exact id
    · rw [MainId, deleteDelta, setTables_tables_of_ne hp]
      exact id

/-- `DELETE FROM vp_rare`, by a condition on the quad. -/
theorem find?_deleteRare {f : Quad → Bool}
    (rare : st'.rare = st.rare.deleteWhere fun r => f r.quad) :
    st'.rare.find? q = if f q = true then none else st.rare.find? q := by
  rw [rare, UniqueTable.find?_deleteWhere f]

theorem sameRows_deleteRare {f : Quad → Bool} (tables : st'.tables = st.tables)
    (rare : st'.rare = st.rare.deleteWhere fun r => f r.quad) (kept : f q = false) :
    SameRows q st st' := by
  refine .of_rare tables ?_
  rw [find?_deleteRare rare, kept]
  simp

theorem fewerRows_deleteRare {f : Quad → Bool} (tables : st'.tables = st.tables)
    (rare : st'.rare = st.rare.deleteWhere fun r => f r.quad) : FewerRows q st st' := by
  cases kept : f q with
  | false => exact (sameRows_deleteRare tables rare kept).fewerRows
  | true =>
    refine ⟨?_, ?_, ?_⟩
    · intro i
      rw [deltaId, tables]
      exact id
    · intro i
      rw [rareId, find?_deleteRare rare, kept]
      simp
    · intro i
      rw [MainId, tables]
      exact id

theorem rare_deleteFromVpRare_eq : (deleteFromVpRare q st).2.rare =
    st.rare.deleteWhere fun r => decide (r.quad = q) := by
  simp only [deleteFromVpRare, subtractTripleCount_rare]

theorem sameRows_deleteFromDedicated (other : q' ≠ q) :
    SameRows q' st (deleteFromDedicated session q st).2 := by
  have key (same : q'.p = q.p) : q'.key ≠ q.key := fun h => other (Quad.ext_key same h)
  simp only [deleteFromDedicated]
  split
  · have deleted : SameRows q' st (st.deleteDelta q.p fun k => decide (k = q.key)) :=
      sameRows_deleteDelta fun same => decide_eq_false (key same)
    exact deleted.trans sameRows_subtractTripleCount
  · refine SameRows.trans ?_ sameRows_subtractTripleCount
    refine SameRows.trans ?_ sameRows_addTombstoneCount
    exact sameRows_insertTombstones fun same => by simpa using key same

theorem fewerRows_deleteFromDedicated :
    FewerRows q' st (deleteFromDedicated session q st).2 := by
  simp only [deleteFromDedicated]
  split
  · have deleted : FewerRows q' st (st.deleteDelta q.p fun k => decide (k = q.key)) :=
      fewerRows_deleteDelta
    exact deleted.trans sameRows_subtractTripleCount.fewerRows
  · exact (fewerRows_insertTombstones.trans sameRows_addTombstoneCount.fewerRows).trans
      sameRows_subtractTripleCount.fewerRows

theorem sameRows_deleteQuad (other : q' ≠ q) : SameRows q' st (deleteQuad session q st).2 := by
  have rare (st : Store) : SameRows q' st (deleteFromVpRare q st).2 :=
    sameRows_deleteRare (f := fun q' => decide (q' = q)) tables_deleteFromVpRare
      rare_deleteFromVpRare_eq (decide_eq_false other)
  simp only [deleteQuad]
  split
  · exact (sameRows_deleteFromDedicated other).trans (rare _)
  · exact rare _

theorem fewerRows_deleteQuad : FewerRows q' st (deleteQuad session q st).2 := by
  have rare (st : Store) : FewerRows q' st (deleteFromVpRare q st).2 :=
    fewerRows_deleteRare (f := fun q' => decide (q' = q)) tables_deleteFromVpRare
      rare_deleteFromVpRare_eq
  simp only [deleteQuad]
  split
  · exact fewerRows_deleteFromDedicated.trans (rare _)
  · exact rare _

theorem sameRows_removeGraphRows (other : q.g ≠ g) :
    SameRows q st (removeGraphRows session g p st).2.2 := by
  refine SameRows.trans ?_ sameRows_subtractTripleCount
  have deleted : SameRows q st (st.deleteDelta p fun k => decide (k.g = g)) :=
    sameRows_deleteDelta fun _ => decide_eq_false other
  refine deleted.trans (sameRows_insertTombstones ?_)
  intro _ member
  exact other (mem_graphKeys.mp member).2

theorem fewerRows_removeGraphRows : FewerRows q st (removeGraphRows session g p st).2.2 := by
  refine FewerRows.trans ?_ sameRows_subtractTripleCount.fewerRows
  have deleted : FewerRows q st (st.deleteDelta p fun k => decide (k.g = g)) :=
      fewerRows_deleteDelta
  exact deleted.trans fewerRows_insertTombstones

theorem sameRows_clearGraphIn {acc : Int × Store} (other : q.g ≠ g) :
    SameRows q acc.2 (clearGraphIn session g acc p).2 := by
  simp only [clearGraphIn]
  split
  · exact (sameRows_removeGraphRows other).trans sameRows_addTombstoneCount
  · exact sameRows_removeGraphRows other

theorem fewerRows_clearGraphIn {acc : Int × Store} :
    FewerRows q acc.2 (clearGraphIn session g acc p).2 := by
  simp only [clearGraphIn]
  split
  · exact fewerRows_removeGraphRows.trans sameRows_addTombstoneCount.fewerRows
  · exact fewerRows_removeGraphRows

section Loop

variable {step : Int × Store → TermId → Int × Store}

theorem sameRows_foldl (round : ∀ acc p, SameRows q acc.2 (step acc p).2) (ps : List TermId)
    (acc : Int × Store) : SameRows q acc.2 (ps.foldl step acc).2 := by
  induction ps generalizing acc with
  | nil => exact .refl q acc.2
  | cons p ps ih => exact (round acc p).trans (ih (step acc p))

theorem fewerRows_foldl (round : ∀ acc p, FewerRows q acc.2 (step acc p).2) (ps : List TermId)
    (acc : Int × Store) : FewerRows q acc.2 (ps.foldl step acc).2 := by
  induction ps generalizing acc with
  | nil => exact (SameRows.refl q acc.2).fewerRows
  | cons p ps ih => exact (round acc p).trans (ih (step acc p))

end Loop

theorem sameRows_removeGraphFromVpRare {acc : Int × Store} (other : q.g ≠ g) :
    SameRows q acc.2 (removeGraphFromVpRare g acc).2 :=
  sameRows_deleteRare (f := fun q => decide (q.g = g)) rfl rfl (decide_eq_false other)

theorem fewerRows_removeGraphFromVpRare {acc : Int × Store} :
    FewerRows q acc.2 (removeGraphFromVpRare g acc).2 :=
  fewerRows_deleteRare (f := fun q => decide (q.g = g)) rfl rfl

/-- Emptying a graph is about its own quads. -/
theorem sameRows_clearGraphById (other : q.g ≠ g) :
    SameRows q st (clearGraphById session g st).2 :=
  (sameRows_foldl (fun _ _ => sameRows_clearGraphIn other) st.dedicatedPredicates (0, st)).trans
    (sameRows_removeGraphFromVpRare other)

theorem fewerRows_clearGraphById : FewerRows q st (clearGraphById session g st).2 :=
  (fewerRows_foldl (fun _ _ => fewerRows_clearGraphIn) st.dedicatedPredicates (0, st)).trans
    fewerRows_removeGraphFromVpRare

theorem sameRows_dropGraph (other : q.g ≠ g) : SameRows q st (dropGraph session g st).2 := by
  have round (acc : Int × Store) (p : TermId) :
      SameRows q acc.2 (dropGraphIn session g acc p).2 := sameRows_removeGraphRows other
  exact (sameRows_foldl round st.dedicatedPredicates (0, st)).trans
    (sameRows_removeGraphFromVpRare other)

theorem fewerRows_dropGraph : FewerRows q st (dropGraph session g st).2 := by
  have round (acc : Int × Store) (p : TermId) :
      FewerRows q acc.2 (dropGraphIn session g acc p).2 := fewerRows_removeGraphRows
  exact (fewerRows_foldl round st.dedicatedPredicates (0, st)).trans
    fewerRows_removeGraphFromVpRare

section Merge

variable {cfg : Config}

theorem sameRows_mergePredicate (cfg : Config) (st : Store) (other : q.p ≠ p) :
    SameRows q st (mergePredicate cfg p st).2 :=
  onlyAt_mergePredicate.sameRows other (by rw [rare_mergePredicate])

/-- After a merge the rows of the quad are those of the new main table. -/
theorem DedicatedAt.deltaId_mergePredicate (cfg : Config) (h : st.DedicatedAt q.p) :
    (Store.mergePredicate cfg q.p st).2.deltaId q = none := by
  rw [deltaId, h.tables_mergePredicate]
  rfl

theorem DedicatedAt.mainId_mergePredicate (cfg : Config) (i : Int) (h : st.DedicatedAt q.p) :
    (Store.mergePredicate cfg q.p st).2.MainId q i ↔
      i ∈ DistinctOn.Ranks Row.key Row.i ((st.tables q.p).buildMain cfg) q.key := by
  rw [MainId, h.tables_mergePredicate]
  exact Iff.rfl

/-- What a merge finds: live rows of `main`, and the row in `delta`. -/
theorem mem_ranks_merged :
    i ∈ DistinctOn.Ranks Row.key Row.i
        ((st.tables q.p).mainMinusTombstones ++ (st.tables q.p).delta.rows) q.key ↔
      (st.MainId q i ∧ ¬ st.Tombstoned q) ∨ st.deltaId q = some i := by
  rw [DistinctOn.ranks_append, Set.mem_union, deltaId_eq_some_iff]
  refine or_congr ?_ Iff.rfl
  simp only [DistinctOn.mem_ranks, HtapTables.mainMinusTombstones, List.mem_filter,
    decide_eq_true_eq, MainId, Tombstoned]
  constructor
  · rintro ⟨r, ⟨hr, live⟩, key, id⟩
    exact ⟨⟨r, hr, key, id⟩, key ▸ live⟩
  · rintro ⟨⟨r, hr, key, id⟩, live⟩
    exact ⟨r, ⟨hr, key ▸ live⟩, key, id⟩

theorem mem_ranks_of_buildMain
    (h : i ∈ DistinctOn.Ranks Row.key Row.i ((st.tables q.p).buildMain cfg) q.key) :
    (st.MainId q i ∧ ¬ st.Tombstoned q) ∨ st.deltaId q = some i := by
  rw [← mem_ranks_merged]
  unfold HtapTables.buildMain at h
  split at h
  · rw [DistinctOn.ranks_distinctOn] at h
    exact h.1
  · exact h

end Merge

/-- An id on a row is spent and names one quad. `delta` and `main` share no row. -/
structure Owned (st : Store) : Prop where
  lawful : st.seq.Lawful
  spent : ∀ q i, st.Carries q i → ¬ st.seq.Pending i
  unique : ∀ q q' i, st.Carries q i → st.Carries q' i → q = q'
  apart : ∀ q i, st.deltaId q = some i → ¬ st.MainId q i

theorem not_carries_initial : ¬ initial.Carries q i := by
  rintro (delta | rare | ⟨_, hr, -⟩)
  · cases delta
  · cases rare
  · cases hr

theorem owned_initial : initial.Owned where
  lawful := Sequence.lawful_initial
  spent _ _ h := (not_carries_initial h).elim
  unique _ _ _ h := (not_carries_initial h).elim
  apart _ _ h := (not_carries_initial (.inl h)).elim

theorem Owned.not_carries (h : st.Owned) (pending : st.seq.Pending i) : ¬ st.Carries q i :=
  fun held => h.spent q i held pending

namespace Owned

open Sequence (Later)

theorem of_moves (h : st.Owned) (later : Later st.seq st'.seq)
    (carries : ∀ q i, st'.Carries q i → st.Carries q i)
    (apart : ∀ q i, st'.deltaId q = some i → ¬ st'.MainId q i) : st'.Owned where
  lawful := later.lawful h.lawful
  spent q i held pending := h.spent q i (carries q i held) (later.pending h.lawful pending)
  unique q q' i held held' := h.unique q q' i (carries q i held) (carries q' i held')
  apart := apart

/-- New rows in `delta` and `vp_rare`, under ids that were drawn for them. -/
theorem of_new (h : st.Owned) (later : Later st.seq st'.seq) (new : Quad → Int → Prop)
    (delta : ∀ q i, st'.deltaId q = some i → st.deltaId q = some i ∨ new q i)
    (rare : ∀ q i, st'.rareId q = some i → st.rareId q = some i ∨ new q i)
    (main : ∀ q i, st'.MainId q i → st.MainId q i)
    (drawn : ∀ q i, new q i → st.seq.Pending i ∧ ¬ st'.seq.Pending i)
    (one : ∀ q q' i, new q i → new q' i → q = q') : st'.Owned := by
  have carries (q : Quad) (i : Int) (held : st'.Carries q i) : st.Carries q i ∨ new q i := by
    obtain row | row | row := held
    · exact (delta q i row).imp_left .inl
    · exact (rare q i row).imp_left fun old => .inr (.inl old)
    · exact .inl (.inr (.inr (main q i row)))
  refine ⟨later.lawful h.lawful, ?_, ?_, ?_⟩
  · intro q i held
    cases carries q i held with
    | inl old => exact fun pending => h.spent q i old (later.pending h.lawful pending)
    | inr new => exact (drawn q i new).2
  · intro q q' i held held'
    cases carries q i held with
    | inl old =>
      cases carries q' i held' with
      | inl old' => exact h.unique q q' i old old'
      | inr new' => exact absurd old (h.not_carries (drawn q' i new').1)
    | inr new =>
      cases carries q' i held' with
      | inl old' => exact absurd old' (h.not_carries (drawn q i new).1)
      | inr new' => exact one q q' i new new'
  · intro q i row inMain
    have before := main q i inMain
    cases delta q i row with
    | inl old => exact h.apart q i old before
    | inr new => exact h.not_carries (drawn q i new).1 (.inr (.inr before))

theorem of_fewerRows (h : st.Owned) (later : Later st.seq st'.seq)
    (fewer : ∀ q, FewerRows q st st') : st'.Owned := by
  refine h.of_new later (fun _ _ => False) ?_ ?_ ?_ ?_ ?_
  · exact fun q i row => .inl ((fewer q).delta i row)
  · exact fun q i row => .inl ((fewer q).rare i row)
  · exact fun q i row => (fewer q).main i row
  · exact fun _ _ => False.elim
  · exact fun _ _ _ => False.elim

theorem insertIntoDelta (h : st.Owned) : (Store.insertIntoDelta session q st).2.Owned := by
  have drawn := h.lawful.nextval session
  refine h.of_new later_insertIntoDelta
    (fun q' i => q' = q ∧ i = (st.seq.nextval session).1) ?_ (fun _ _ => .inl) ?_ ?_ ?_
  · intro q' i row
    by_cases same : q' = q
    · subst same
      rw [deltaId_insertIntoDelta] at row
      cases row
      exact .inr ⟨rfl, rfl⟩
    · exact .inl ((sameRows_insertIntoDelta same).fewerRows.delta i row)
  · intro q' i row
    by_cases same : q' = q
    · subst same
      exact (main_insertIntoDelta session q' st i).1.mp row
    · exact ((sameRows_insertIntoDelta same).main i).mp row
  · rintro q' i ⟨-, rfl⟩
    exact ⟨drawn.pending, drawn.spent⟩
  · rintro q' q'' i ⟨rfl, -⟩ ⟨rfl, -⟩
    rfl

theorem insertIntoVpRare (h : st.Owned) : (Store.insertIntoVpRare session q st).2.Owned := by
  have drawn := h.lawful.nextval session
  have spent : ¬ (Store.insertIntoVpRare session q st).2.seq.Pending
      (st.seq.nextval session).1 := by
    rw [seq_insertIntoVpRare]
    exact drawn.spent
  refine h.of_new later_insertIntoVpRare
    (fun q' i => q' = q ∧ i = (st.seq.nextval session).1) ?_ ?_ ?_ ?_ ?_
  · intro q' i row
    rw [deltaId, tables_insertIntoVpRare] at row
    exact .inl row
  · intro q' i row
    by_cases kept : q' ≠ q ∨ st.rare.HasKey q'
    · exact .inl ((sameRows_insertIntoVpRare kept).fewerRows.rare i row)
    · obtain ⟨same, fresh⟩ := not_or.mp kept
      rw [not_not.mp same] at row fresh
      rw [rareId_insertIntoVpRare fresh] at row
      cases row
      exact .inr ⟨not_not.mp same, rfl⟩
  · intro q' i row
    rw [MainId, tables_insertIntoVpRare] at row
    exact row
  · rintro q' i ⟨-, rfl⟩
    exact ⟨drawn.pending, spent⟩
  · rintro q' q'' i ⟨rfl, -⟩ ⟨rfl, -⟩
    rfl

theorem batchIntoDelta {keys : List Key} (h : st.Owned) :
    (Store.batchIntoDelta session p keys st).Owned := by
  refine h.of_new (.stamp st.seq session keys)
    (fun q i => q.p = p ∧ (q.key, i) ∈ (st.seq.stamp session keys).1) ?_ (fun _ _ => .inl) ?_ ?_ ?_
  · intro q i row
    by_cases hp : q.p = p
    · rw [deltaId_batchIntoDelta hp, Option.or_eq_some_iff] at row
      exact row.imp_right fun first => ⟨hp, mem_of_firstStamp first.2⟩
    · exact .inl ((sameRows_batchIntoDelta fun same => absurd same hp).fewerRows.delta i row)
  · intro q i row
    by_cases hp : q.p = p
    · exact (main_batchIntoDelta session keys st i hp).1.mp row
    · exact ((sameRows_batchIntoDelta fun same => absurd same hp).main i).mp row
  · rintro q i ⟨-, member⟩
    exact h.lawful.stamp member
  · rintro q q' i ⟨hp, member⟩ ⟨hp', member'⟩
    have same := List.inj_on_of_nodup_map h.lawful.nodup_stamp member member' rfl
    exact Quad.ext_key (hp.trans hp'.symm) (congrArg Prod.fst same)

theorem batchIntoVpRare {keys : List Key} (h : st.Owned) :
    (Store.batchIntoVpRare session p keys st).Owned := by
  refine h.of_new (.stamp st.seq session _)
    (fun q i => (q, i) ∈ (st.seq.stamp session (st.newQuads p keys)).1) (fun _ _ => .inl) ?_
    (fun _ _ => id) ?_ ?_
  · intro q i row
    rw [rareId_eq_some_iff, rare_batchIntoVpRare_eq] at row
    obtain ⟨r, hr, rfl, rfl⟩ := row
    cases UniqueTable.mem_of_mem_insertAll hr with
    | inl old => exact .inl (rareId_eq_some_iff.mpr ⟨r, old, rfl, rfl⟩)
    | inr new =>
      obtain ⟨x, hx, rfl⟩ := List.mem_map.mp new
      exact .inr hx
  · exact fun q i member => h.lawful.stamp member
  · intro q q' i member member'
    exact congrArg Prod.fst (List.inj_on_of_nodup_map h.lawful.nodup_stamp member member' rfl)

theorem promotePredicate (h : st.Owned) (layout : st.Layout) :
    (st.promotePredicate p).Owned := by
  have delta (q : Quad) (i : Int) (row : (st.promotePredicate p).deltaId q = some i) :
      st.deltaId q = some i ∨ (q.p = p ∧ st.rareId q = some i) := by
    by_cases hp : q.p = p
    · rw [layout.deltaId_promotePredicate hp, Option.or_eq_some_iff] at row
      exact row.imp_right fun moved => ⟨hp, moved.2⟩
    · exact .inl ((sameRows_promotePredicate hp).fewerRows.delta i row)
  have main (q : Quad) (i : Int) (row : (st.promotePredicate p).MainId q i) : st.MainId q i := by
    by_cases hp : q.p = p
    · exact (layout.main_promotePredicate hp).1.mp row
    · exact ((sameRows_promotePredicate hp).main i).mp row
  refine h.of_moves (by rw [seq_promotePredicate]; exact .refl) ?_ ?_
  · rintro q i (row | row | row)
    · exact (delta q i row).imp_right fun moved => .inl moved.2
    · rw [rareId_promotePredicate] at row
      split at row
      · cases row
      · exact .inr (.inl row)
    · exact .inr (.inr (main q i row))
  · intro q i row inMain
    cases delta q i row with
    | inl old => exact h.apart q i old (main q i inMain)
    | inr moved =>
      obtain ⟨r, hr, same, -⟩ := rareId_eq_some_iff.mp moved.2
      have unused := layout.unusedAt (layout.rare q (same ▸ UniqueTable.HasKey.of_mem hr))
      obtain ⟨_, member, -⟩ := main q i inMain
      rw [unused.tables] at member
      cases member

theorem mergePredicate {cfg : Config} (h : st.Owned) (layout : st.Layout) :
    (Store.mergePredicate cfg p st).2.Owned := by
  cases layout.predicate p with
  | inr unused =>
    rw [unused.mergePredicate_eq]
    exact h
  | inl used =>
    refine h.of_moves (by rw [seq_mergePredicate]; exact .refl) ?_ ?_
    · rintro q i held
      by_cases hp : q.p = p
      · subst hp
        obtain row | row | row := held
        · rw [used.deltaId_mergePredicate] at row
          cases row
        · rw [rareId, rare_mergePredicate] at row
          exact .inr (.inl row)
        · cases mem_ranks_of_buildMain ((used.mainId_mergePredicate cfg i).mp row) with
          | inl main => exact .inr (.inr main.1)
          | inr delta => exact .inl delta
      · have same := (sameRows_mergePredicate cfg st hp).fewerRows
        obtain row | row | row := held
        · exact .inl (same.delta i row)
        · exact .inr (.inl (same.rare i row))
        · exact .inr (.inr (same.main i row))
    · intro q i row inMain
      by_cases hp : q.p = p
      · subst hp
        rw [used.deltaId_mergePredicate] at row
        cases row
      · have same := (sameRows_mergePredicate cfg st hp).fewerRows
        exact h.apart q i (same.delta i row) (same.main i inMain)

theorem insertTriple {cfg : Config} (h : st.Owned) (layout : st.Layout) :
    (Store.insertTriple cfg session q st).2.Owned := by
  rw [Store.insertTriple]
  split
  · exact h.insertIntoDelta
  · rename_i hp
    have unused : st.isDedicated q.p = false := by simpa using hp
    dsimp only
    split
    · exact h.insertIntoVpRare.promotePredicate (layout.insertIntoVpRare unused)
    · exact h.insertIntoVpRare

/-- Every operation keeps ids as names. -/
theorem apply (h : st.Owned) (layout : st.Layout) (op : Op) : (op.apply st).Owned := by
  cases op with
  | insertTriple cfg session q => exact h.insertTriple layout
  | insertEncodedTriple session q =>
    rw [Op.apply, insertEncodedTriple]
    split
    · exact h.insertIntoDelta
    · exact h.insertIntoVpRare
  | batchInsertEncoded session p keys =>
    rw [Op.apply, batchInsertEncoded]
    split
    · exact h
    · split
      · exact h.batchIntoDelta
      · exact h.batchIntoVpRare
  | deleteTriple session q => exact h.of_fewerRows later_deleteQuad fun _ => fewerRows_deleteQuad
  | deleteTripleByIds session q =>
    exact h.of_fewerRows later_deleteQuad fun _ => fewerRows_deleteQuad
  | promotePredicate p => exact h.promotePredicate layout
  | mergePredicate cfg p => exact h.mergePredicate layout
  | clearGraphById session g =>
    exact h.of_fewerRows later_clearGraphById fun _ => fewerRows_clearGraphById
  | dropGraph session g => exact h.of_fewerRows later_dropGraph fun _ => fewerRows_dropGraph

end Owned

end PgRipple.Storage.Store
