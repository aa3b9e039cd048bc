import PgRipple.Lib.UniqueTable
import PgRipple.Lib.DistinctOn
import PgRipple.Storage.Sequence

/-!
# The tables of one predicate

A predicate with dedicated storage is split in three: `delta` is the write
inbox and has a `UNIQUE (s, o, g)` constraint; `main` is read-optimised, has no
constraint and is only replaced as a whole; `tombstones` records deletes against
`main` that a later merge applies, again without a constraint.

Readers never see the three tables, only a view over them. The view exists in
two forms: the tombstone-aware form hides main rows that have a tombstone, and
the tombstone-skip form reads `main` as it is. Which form is installed is part
of the state, because operations switch it.
-/

namespace PgRipple.Storage

/-- The columns `(s, o, g)` that identify a triple within a predicate. -/
structure Key where
  s : TermId
  o : TermId
  g : TermId
  deriving DecidableEq, Repr

/-- A row of `delta` or `main`. -/
structure Row where
  key : Key
  i : Int
  source : Int
  deriving DecidableEq, Repr

/-- A row of `tombstones`. -/
structure Tombstone where
  key : Key
  i : Int
  deriving DecidableEq, Repr

/-- The two definitions that `htap_view_sql` can install. -/
inductive ViewForm where
  /-- `LEFT JOIN tombstones … WHERE t.s IS NULL`. -/
  | tombstoneAware
  /-- `main` without the join. -/
  | tombstoneSkip
  deriving DecidableEq, Repr

/-- The three tables of a predicate and the view that is installed over them. -/
structure HtapTables where
  delta : UniqueTable Row.key
  main : List Row
  tombstones : List Tombstone
  view : ViewForm

namespace HtapTables

/-- The state `ensure_htap_tables` creates. -/
def fresh : HtapTables where
  delta := UniqueTable.empty Row.key
  main := []
  tombstones := []
  view := .tombstoneAware

/-- A triple occurs in `main`, tombstones left aside. -/
def InMain (t : HtapTables) (k : Key) : Prop := k ∈ t.main.map Row.key

/-- A triple has at least one tombstone. -/
def InTombstones (t : HtapTables) (k : Key) : Prop := k ∈ t.tombstones.map Tombstone.key

/-- A triple occurs in `delta`. -/
def InDelta (t : HtapTables) (k : Key) : Prop := t.delta.HasKey k

instance (t : HtapTables) (k : Key) : Decidable (t.InMain k) :=
  inferInstanceAs (Decidable (k ∈ t.main.map Row.key))

instance (t : HtapTables) (k : Key) : Decidable (t.InTombstones k) :=
  inferInstanceAs (Decidable (k ∈ t.tombstones.map Tombstone.key))

instance (t : HtapTables) (k : Key) : Decidable (t.InDelta k) :=
  inferInstanceAs (Decidable (t.delta.HasKey k))

/-- `SELECT … FROM main LEFT JOIN tombstones … WHERE t.s IS NULL`. -/
def mainMinusTombstones (t : HtapTables) : List Row :=
  t.main.filter fun r => ¬ t.InTombstones r.key

/-- The part of `main` that the installed view reads. -/
def viewMain (t : HtapTables) : List Row :=
  match t.view with
  | .tombstoneAware => t.mainMinusTombstones
  | .tombstoneSkip => t.main

/-- The number of rows of `main` with a key, tombstones left aside. -/
def mainCopies (t : HtapTables) (k : Key) : Nat := (t.main.filter fun r => r.key = k).length

/-- `htap_view_sql`: the rows of view `vp_{id}`. -/
def htapView (t : HtapTables) : List Row :=
  DistinctOn.distinctOn Row.key Row.i (t.viewMain ++ t.delta.rows)

/-- A triple is visible in the view. -/
def Shows (t : HtapTables) (k : Key) : Prop := k ∈ t.htapView.map Row.key

instance (t : HtapTables) (k : Key) : Decidable (t.Shows k) :=
  inferInstanceAs (Decidable (k ∈ t.htapView.map Row.key))

/-- The view shows a triple under this statement id. -/
def ShowsAs (t : HtapTables) (k : Key) (i : Int) : Prop :=
  ∃ r ∈ t.htapView, r.key = k ∧ r.i = i

/-- A main row of this triple passes the installed view. -/
def MainVisible (t : HtapTables) (k : Key) : Prop :=
  t.InMain k ∧ (t.view = .tombstoneAware → ¬ t.InTombstones k)

instance (t : HtapTables) (k : Key) : Decidable (t.MainVisible k) :=
  inferInstanceAs (Decidable (_ ∧ _))

theorem mainCopies_pos_iff {t : HtapTables} {k : Key} : 0 < t.mainCopies k ↔ t.InMain k := by
  rw [mainCopies, List.length_pos_iff_exists_mem, InMain, List.mem_map]
  simp only [List.mem_filter, decide_eq_true_eq]

theorem mem_map_mainMinusTombstones {t : HtapTables} {k : Key} :
    k ∈ t.mainMinusTombstones.map Row.key ↔ t.InMain k ∧ ¬ t.InTombstones k := by
  simp only [mainMinusTombstones, InMain, List.mem_map, List.mem_filter, decide_eq_true_eq]
  constructor
  · rintro ⟨r, ⟨hr, live⟩, rfl⟩
    exact ⟨⟨r, hr, rfl⟩, live⟩
  · rintro ⟨⟨r, hr, rfl⟩, live⟩
    exact ⟨r, ⟨hr, live⟩, rfl⟩

theorem mem_map_viewMain {t : HtapTables} {k : Key} :
    k ∈ t.viewMain.map Row.key ↔ t.MainVisible k := by
  unfold viewMain MainVisible
  cases form : t.view with
  | tombstoneAware => simpa using mem_map_mainMinusTombstones
  | tombstoneSkip => simp [InMain]

/-- What the view shows: live main rows and the whole of `delta`. -/
theorem shows_iff {t : HtapTables} {k : Key} : t.Shows k ↔ t.MainVisible k ∨ t.InDelta k := by
  simp only [Shows, htapView, DistinctOn.mem_map_key_distinctOn, List.map_append,
    List.mem_append, mem_map_viewMain, InDelta, UniqueTable.HasKey]

/-- A visible triple shows the least statement id among its rows. -/
theorem showsAs_iff {t : HtapTables} {k : Key} {i : Int} :
    t.ShowsAs k i ↔
      IsLeast (DistinctOn.Ranks Row.key Row.i (t.viewMain ++ t.delta.rows) k) i := by
  change i ∈ DistinctOn.Ranks Row.key Row.i t.htapView k ↔ _
  rw [htapView, DistinctOn.ranks_distinctOn]
  exact Iff.rfl

section Clean

variable {t : HtapTables}

/-- If the skip form only occurs without tombstones, the view reads live main rows. -/
theorem viewMain_of_clean (clean : t.view = .tombstoneSkip → t.tombstones = []) :
    t.viewMain = t.mainMinusTombstones := by
  unfold viewMain
  cases view : t.view with
  | tombstoneAware => rfl
  | tombstoneSkip => simp [mainMinusTombstones, InTombstones, clean view]

theorem mainVisible_iff_of_clean (clean : t.view = .tombstoneSkip → t.tombstones = [])
    {k : Key} : t.MainVisible k ↔ t.InMain k ∧ ¬ t.InTombstones k := by
  rw [← mem_map_viewMain, viewMain_of_clean clean, mem_map_mainMinusTombstones]

theorem shows_iff_of_clean (clean : t.view = .tombstoneSkip → t.tombstones = []) {k : Key} :
    t.Shows k ↔ (t.InMain k ∧ ¬ t.InTombstones k) ∨ t.InDelta k := by
  rw [shows_iff, mainVisible_iff_of_clean clean]

end Clean

theorem tombstones_eq_nil_iff {t : HtapTables} :
    t.tombstones = [] ↔ ∀ k, ¬ t.InTombstones k := by
  simp [InTombstones, List.eq_nil_iff_forall_not_mem]

@[simp] theorem not_inMain_fresh (k : Key) : ¬ fresh.InMain k := List.not_mem_nil

@[simp] theorem not_inTombstones_fresh (k : Key) : ¬ fresh.InTombstones k := List.not_mem_nil

@[simp] theorem not_inDelta_fresh (k : Key) : ¬ fresh.InDelta k := List.not_mem_nil

@[simp] theorem not_shows_fresh (k : Key) : ¬ fresh.Shows k := by
  simp [shows_iff, MainVisible]

end HtapTables

end PgRipple.Storage
