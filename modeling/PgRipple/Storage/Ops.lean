import PgRipple.Storage.Store

/-!
# Insert, promote and delete

The write operations of the store, statement by statement. Each takes the session
that calls it, because statement ids come from that session's block of the
sequence, and returns the store together with the operation's result.

Terms arrive already encoded: the textual entry points only add a dictionary
lookup in front. A column default `nextval(…)` is evaluated for every candidate
row, before the conflict check, so a skipped row still consumes an id.

`deleteTriple` and `deleteTripleByIds` are two copies of one body in the source.
They differ in the advisory lock and in the mutation journal, neither of which
is part of the store, and share `deleteQuad` here.
-/

namespace PgRipple.Storage.Store

/-- `SET triple_count = triple_count + n`. -/
def addTripleCount (st : Store) (p : TermId) (n : Int) : Store :=
  st.updatePredicate p fun r => { r with tripleCount := r.tripleCount + n }

/-- `SET triple_count = GREATEST(0, triple_count - n)`, executed only for `n > 0`. -/
def subtractTripleCount (st : Store) (p : TermId) (n : Int) : Store :=
  if 0 < n then
    st.updatePredicate p fun r => { r with tripleCount := max 0 (r.tripleCount - n) }
  else st

@[simp] theorem subtractTripleCount_tables (st : Store) (p : TermId) (n : Int) :
    (st.subtractTripleCount p n).tables = st.tables := by
  unfold subtractTripleCount
  split <;> rfl

@[simp] theorem subtractTripleCount_rare (st : Store) (p : TermId) (n : Int) :
    (st.subtractTripleCount p n).rare = st.rare := by
  unfold subtractTripleCount
  split <;> rfl

@[simp] theorem isDedicated_subtractTripleCount (st : Store) (p : TermId) (n : Int)
    (p' : TermId) : (st.subtractTripleCount p n).isDedicated p' = st.isDedicated p' := by
  unfold subtractTripleCount
  split
  · exact isDedicated_updatePredicate fun _ => rfl
  · rfl

/-- `rebuild_htap_view(p, has_tombstones)`. -/
def rebuildHtapView (st : Store) (p : TermId) (hasTombstones : Bool) : Store :=
  st.setTables p
    { st.tables p with view := if hasTombstones then .tombstoneAware else .tombstoneSkip }

/-- `INSERT INTO delta … ON CONFLICT (s, o, g) DO UPDATE SET i = EXCLUDED.i RETURNING i`,
followed by the update of `triple_count`. -/
def insertIntoDelta (session : Session) (q : Quad) (st : Store) : Int × Store :=
  let (i, seq) := st.seq.nextval session
  let t := st.tables q.p
  let delta := t.delta.upsert ⟨q.key, i, 0⟩ (fun r => { r with i := i }) fun _ => rfl
  (i, ({ st with seq := seq }.setTables q.p { t with delta := delta }).addTripleCount q.p 1)

/-- Upsert of a catalog row for a predicate kept in `vp_rare`. -/
def upsertRarePredicate (st : Store) (p : TermId) (n : Int) : Store :=
  { st with
    predicates := st.predicates.upsert
      { id := p, hasTable := false, tripleCount := n, htap := false, tombstoneCount := 0 }
      (fun r => { r with tripleCount := r.tripleCount + n }) fun _ => rfl }

/-- `INSERT INTO vp_rare … ON CONFLICT (p, s, o, g) DO NOTHING RETURNING i`, where the
caller reads `0` if no row comes back. -/
def insertRareRow (session : Session) (q : Quad) (st : Store) : Int × Store :=
  let (i, seq) := st.seq.nextval session
  (if st.rare.HasKey q then 0 else i,
    { st with seq := seq, rare := st.rare.insertNew ⟨q, i, 0⟩ })

/-- `insert_into_vp_rare`: the statement id, or `0` for a duplicate quad. -/
def insertIntoVpRare (session : Session) (q : Quad) (st : Store) : Int × Store :=
  let (sid, st) := insertRareRow session q st
  if sid = 0 then (0, st) else (sid, st.upsertRarePredicate q.p 1)

/-- `ensure_htap_tables`: tables that exist are kept, the view is created in its
tombstone-aware form and the catalog row is marked. -/
def ensureHtapTables (st : Store) (p : TermId) : Store :=
  let st := st.rebuildHtapView p true
  { st with
    predicates := st.predicates.upsert
      { id := p, hasTable := true, tripleCount := 0, htap := true, tombstoneCount := 0 }
      (fun r => { r with hasTable := true, htap := true }) fun _ => rfl }

/-- `ensure_vp_table`. -/
def ensureVpTable (st : Store) (p : TermId) : Store :=
  if st.isDedicated p then st else st.ensureHtapTables p

/-- `promote_predicate`: move the predicate's rows from `vp_rare` to `delta`,
keeping their statement ids. -/
def promotePredicate (st : Store) (p : TermId) : Store :=
  let st := st.ensureVpTable p
  let moved := st.rare.rows.filter fun r => r.quad.p = p
  let t := st.tables p
  let delta := t.delta.insertAll (moved.map fun r => ⟨r.quad.key, r.i, r.source⟩)
  let st := { st with rare := st.rare.deleteWhere fun r => r.quad.p = p }
  (st.setTables p { t with delta := delta }).updatePredicate p
    fun r => { r with tripleCount := delta.rows.length, hasTable := true }

/-- `insert_triple`: the statement id and the store. -/
def insertTriple (cfg : Config) (session : Session) (q : Quad) (st : Store) : Int × Store :=
  if st.isDedicated q.p then insertIntoDelta session q st
  else
    let (sid, st) := insertIntoVpRare session q st
    if cfg.vpPromotionThreshold ≤ st.tripleCount q.p then (sid, st.promotePredicate q.p)
    else (sid, st)

/-- `insert_encoded_triple`, which leaves promotion to its caller. -/
def insertEncodedTriple (session : Session) (q : Quad) (st : Store) : Int × Store :=
  if st.isDedicated q.p then insertIntoDelta session q st else insertIntoVpRare session q st

/-- The multi-row insert into `delta` that `batch_insert_encoded` issues. -/
def batchIntoDelta (session : Session) (p : TermId) (keys : List Key) (st : Store) : Store :=
  let (stamped, seq) := st.seq.stamp session keys
  let t := st.tables p
  let rows := stamped.map fun (k, i) => (⟨k, i, 0⟩ : Row)
  ({ st with seq := seq }.setTables p { t with delta := t.delta.insertAll rows }).addTripleCount
    p keys.length

/-- The multi-row insert into `vp_rare`: duplicates within the batch and quads
already present are removed before ids are drawn. -/
def batchIntoVpRare (session : Session) (p : TermId) (keys : List Key) (st : Store) : Store :=
  let quads := (keys.eraseDups.map (Key.quad · p)).filter fun q => ¬ st.rare.HasKey q
  let (stamped, seq) := st.seq.stamp session quads
  let rows := stamped.map fun (q, i) => (⟨q, i, 0⟩ : RareRow)
  { st with seq := seq, rare := st.rare.insertAll rows }.upsertRarePredicate p keys.length

/-- `batch_insert_encoded`: the number of rows received. -/
def batchInsertEncoded (session : Session) (p : TermId) (keys : List Key) (st : Store) :
    Int × Store :=
  if keys.isEmpty then (0, st)
  else if st.isDedicated p then (keys.length, batchIntoDelta session p keys st)
  else (keys.length, batchIntoVpRare session p keys st)

/-- `INSERT INTO tombstones (s, o, g)`. The table has no constraint, so every row
is inserted and `ON CONFLICT DO NOTHING` never fires. -/
def insertTombstones (session : Session) (p : TermId) (keys : List Key) (st : Store) : Store :=
  let (stamped, seq) := st.seq.stamp session keys
  let t := st.tables p
  let rows := stamped.map fun (k, i) => (⟨k, i⟩ : Tombstone)
  { st with seq := seq }.setTables p { t with tombstones := t.tombstones ++ rows }

/-- `UPDATE … SET tombstone_count = tombstone_count + n RETURNING tombstone_count - n`;
a previous count of `0` switches the view back to the tombstone-aware form. -/
def addTombstoneCount (st : Store) (p : TermId) (n : Int) : Store :=
  let prevCount := ((st.predicates.find? p).map PredicateRow.tombstoneCount).getD 1
  let st := st.updatePredicate p fun r => { r with tombstoneCount := r.tombstoneCount + n }
  if prevCount = 0 then st.rebuildHtapView p true else st

@[simp] theorem addTombstoneCount_rare (st : Store) (p : TermId) (n : Int) :
    (st.addTombstoneCount p n).rare = st.rare := by
  simp only [addTombstoneCount]
  split <;> rfl

@[simp] theorem isDedicated_addTombstoneCount (st : Store) (p : TermId) (n : Int)
    (p' : TermId) : (st.addTombstoneCount p n).isDedicated p' = st.isDedicated p' := by
  simp only [addTombstoneCount]
  split <;> exact isDedicated_updatePredicate fun _ => rfl

/-- The dedicated-table half of a delete: remove the triple from `delta` or, if it
is not there, record a tombstone and count the main rows of the triple. -/
def deleteFromDedicated (session : Session) (q : Quad) (st : Store) : Int × Store :=
  let t := st.tables q.p
  let removed := (t.delta.rows.filter fun r => r.key = q.key).length
  if 0 < removed then
    let st := st.setTables q.p { t with delta := t.delta.deleteWhere fun r => r.key = q.key }
    (removed, st.subtractTripleCount q.p removed)
  else
    let st := (st.insertTombstones session q.p [q.key]).addTombstoneCount q.p 1
    let inMain := (t.main.filter fun r => r.key = q.key).length
    (inMain, st.subtractTripleCount q.p inMain)

/-- The `vp_rare` half of a delete. -/
def deleteFromVpRare (q : Quad) (st : Store) : Int × Store :=
  let removed := (st.rare.rows.filter fun r => r.quad = q).length
  ((removed : Int),
    { st with rare := st.rare.deleteWhere fun r => r.quad = q }.subtractTripleCount q.p removed)

/-- The common body of the two delete functions: the number of rows removed. -/
def deleteQuad (session : Session) (q : Quad) (st : Store) : Int × Store :=
  let (deleted, st) :=
    if st.isDedicated q.p then deleteFromDedicated session q st else (0, st)
  let (d, st) := deleteFromVpRare q st
  (deleted + d, st)

/-- `delete_triple`. -/
def deleteTriple (session : Session) (q : Quad) (st : Store) : Int × Store :=
  deleteQuad session q st

/-- `delete_triple_by_ids`. -/
def deleteTripleByIds (session : Session) (q : Quad) (st : Store) : Int × Store :=
  deleteQuad session q st

end PgRipple.Storage.Store
