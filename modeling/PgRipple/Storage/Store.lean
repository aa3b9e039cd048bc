import PgRipple.Storage.Tables

/-!
# The triple store

The store is the predicate catalog, one `HtapTables` per predicate, the
consolidated table `vp_rare` for predicates without dedicated storage, and the
statement-id sequence. A catalog row with a `table_oid` marks its predicate as
dedicated. `table_oid` only ever decides that question, so it is kept as a flag.

`Visible` is the observation every result about the store is stated with: a quad
is visible if the view of its dedicated predicate shows it, or if it lies in
`vp_rare`.
-/

namespace PgRipple.Storage

/-- A quad, as dictionary ids. -/
structure Quad where
  s : TermId
  p : TermId
  o : TermId
  g : TermId
  deriving DecidableEq, Repr

/-- The columns of a quad that its predicate's tables store. -/
def Quad.key (q : Quad) : Key := ⟨q.s, q.o, q.g⟩

/-- The quad that a row of predicate `p` stands for. -/
def Key.quad (k : Key) (p : TermId) : Quad := ⟨k.s, p, k.o, k.g⟩

@[simp] theorem Key.quad_p (k : Key) (p : TermId) : (k.quad p).p = p := rfl

@[simp] theorem Key.quad_key (k : Key) (p : TermId) : (k.quad p).key = k := rfl

@[simp] theorem Quad.key_quad (q : Quad) : q.key.quad q.p = q := rfl

theorem Quad.ext_key {q q' : Quad} (hp : q.p = q'.p) (hk : q.key = q'.key) : q = q' := by
  rw [← q.key_quad, ← q'.key_quad, hp, hk]

/-- A row of `_pg_ripple.vp_rare`. -/
structure RareRow where
  quad : Quad
  i : Int
  source : Int
  deriving DecidableEq, Repr

/-- A row of `_pg_ripple.predicates`, restricted to the columns that storage
operations read or decide by. -/
structure PredicateRow where
  id : TermId
  /-- `table_oid IS NOT NULL`. -/
  hasTable : Bool
  tripleCount : Int
  htap : Bool
  tombstoneCount : Int
  deriving DecidableEq, Repr

/-- The whole store. -/
structure Store where
  predicates : UniqueTable PredicateRow.id
  tables : TermId → HtapTables
  rare : UniqueTable RareRow.quad
  seq : Sequence

/-- The settings that storage operations consult. -/
structure Config where
  /-- `pg_ripple.vp_promotion_threshold`. -/
  vpPromotionThreshold : Int
  /-- `pg_ripple.dedup_on_merge`. -/
  dedupOnMerge : Bool
  /-- `pg_ripple.tombstone_retention_seconds`. -/
  tombstoneRetentionSeconds : Int

namespace Store

/-- The store after installation. The tables of a predicate are only reachable
through the catalog, so their content before promotion is immaterial. -/
def initial : Store where
  predicates := UniqueTable.empty PredicateRow.id
  tables := fun _ => HtapTables.fresh
  rare := UniqueTable.empty RareRow.quad
  seq := Sequence.initial

/-- `get_dedicated_vp_table` finds a view for the predicate. -/
def isDedicated (st : Store) (p : TermId) : Bool :=
  (st.predicates.find? p).any PredicateRow.hasTable

/-- `merge::is_htap`. -/
def isHtap (st : Store) (p : TermId) : Bool :=
  (st.predicates.find? p).any PredicateRow.htap

/-- `SELECT id FROM _pg_ripple.predicates WHERE table_oid IS NOT NULL`. -/
def dedicatedPredicates (st : Store) : List TermId :=
  (st.predicates.rows.filter PredicateRow.hasTable).map PredicateRow.id

/-- `SELECT triple_count … WHERE id = $1`, with the caller's default of `0`. -/
def tripleCount (st : Store) (p : TermId) : Int :=
  ((st.predicates.find? p).map PredicateRow.tripleCount).getD 0

/-- `tombstone_count` of a predicate, and `0` without a catalog row. -/
def tombstoneCount (st : Store) (p : TermId) : Int :=
  ((st.predicates.find? p).map PredicateRow.tombstoneCount).getD 0

/-- A quad is visible through the view of its predicate or through `vp_rare`. -/
def Visible (st : Store) (q : Quad) : Prop :=
  (st.isDedicated q.p = true ∧ (st.tables q.p).Shows q.key) ∨ st.rare.HasKey q

instance (st : Store) (q : Quad) : Decidable (st.Visible q) :=
  inferInstanceAs (Decidable (_ ∨ _))

/-- `UPDATE _pg_ripple.predicates SET … WHERE id = $1`; no statement assigns `id`. -/
def updatePredicate (st : Store) (p : TermId) (f : PredicateRow → PredicateRow) : Store :=
  { st with
    predicates := st.predicates.update
      (fun r => if r.id = p then { f r with id := r.id } else r) (by
        intro r
        split <;> rfl) }

/-- Replace the tables of one predicate. -/
def setTables (st : Store) (p : TermId) (t : HtapTables) : Store :=
  { st with tables := Function.update st.tables p t }

section Fields

variable {st : Store} {p p' : TermId} {t : HtapTables} {f : PredicateRow → PredicateRow}

@[simp] theorem updatePredicate_tables : (st.updatePredicate p f).tables = st.tables := rfl

@[simp] theorem updatePredicate_rare : (st.updatePredicate p f).rare = st.rare := rfl

@[simp] theorem updatePredicate_seq : (st.updatePredicate p f).seq = st.seq := rfl

@[simp] theorem setTables_predicates : (st.setTables p t).predicates = st.predicates := rfl

@[simp] theorem setTables_rare : (st.setTables p t).rare = st.rare := rfl

@[simp] theorem setTables_seq : (st.setTables p t).seq = st.seq := rfl

@[simp] theorem setTables_tables_self : (st.setTables p t).tables p = t :=
  Function.update_self ..

theorem setTables_tables_of_ne (h : p' ≠ p) : (st.setTables p t).tables p' = st.tables p' :=
  Function.update_of_ne h ..

/-- An update of the catalog acts on the row of its predicate only. -/
theorem find?_updatePredicate :
    (st.updatePredicate p f).predicates.find? p' =
      if p' = p then (st.predicates.find? p').map fun r => { f r with id := r.id }
      else st.predicates.find? p' := by
  rw [updatePredicate, UniqueTable.find?_update]
  cases found : st.predicates.find? p' with
  | none => simp
  | some r =>
    obtain ⟨_, rfl⟩ := UniqueTable.find?_eq_some_iff.mp found
    by_cases same : r.id = p <;> simp [same]

/-- Counters can be changed without moving a predicate between the layouts. -/
theorem isDedicated_updatePredicate (layout : ∀ r, (f r).hasTable = r.hasTable) :
    (st.updatePredicate p f).isDedicated p' = st.isDedicated p' := by
  unfold isDedicated
  rw [find?_updatePredicate]
  cases st.predicates.find? p' with
  | none => simp
  | some r => by_cases same : p' = p <;> simp [same, layout]

@[simp] theorem isDedicated_setTables : (st.setTables p t).isDedicated p' = st.isDedicated p' :=
  rfl

@[simp] theorem mem_dedicatedPredicates : p ∈ st.dedicatedPredicates ↔ st.isDedicated p = true := by
  unfold dedicatedPredicates isDedicated
  simp only [List.mem_map, List.mem_filter]
  constructor
  · rintro ⟨r, ⟨hr, has⟩, same⟩
    have found : st.predicates.find? p = some r :=
      UniqueTable.find?_eq_some_iff.mpr ⟨hr, same⟩
    simp [found, has]
  · intro h
    cases found : st.predicates.find? p with
    | none => simp [found] at h
    | some r =>
      obtain ⟨hr, same⟩ := UniqueTable.find?_eq_some_iff.mp found
      exact ⟨r, ⟨hr, by simpa [found] using h⟩, same⟩

/-- Without dedicated predicates everything visible lies in `vp_rare`. -/
theorem visible_iff_mem_rare (none : st.dedicatedPredicates = []) {q : Quad} :
    st.Visible q ↔ q ∈ st.rare.rows.map RareRow.quad := by
  refine or_iff_right ?_
  intro ⟨dedicated, _⟩
  have := mem_dedicatedPredicates.mpr dedicated
  rw [none] at this
  cases this

theorem nodup_dedicatedPredicates (st : Store) : st.dedicatedPredicates.Nodup :=
  st.predicates.unique.sublist (List.filter_sublist.map _)

end Fields

end Store

end PgRipple.Storage
