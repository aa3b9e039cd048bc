import PgRipple.Storage.RowIds
import PgRipple.Lib.Run
import Mathlib.Data.List.MinMax

/-!
# Finding a statement by its id

`get_statement_by_sid` first asks the catalog `statements`, which a merge fills with the range of
ids of the new main table, for a predicate, and looks for the id in the view of that predicate. If
that fails it looks through all views, and last in `vp_rare`. Ids name quads, so the order does not
matter: the lookup answers with the quad that some view, or `vp_rare`, shows under the id.

A view shows a quad under one id only, the smallest of its rows. An id that an insert returned can
therefore be found as long as its row is the smallest one. `Kept` says that the row is there and
will survive merges, `Least` that no visible row has a smaller id; together they are an invariant of
everything but inserts of the same quad, and `Op.Spares` says which of those keep it.
-/

namespace PgRipple.Storage

/-- A row of `_pg_ripple.statements`. -/
structure StatementRange where
  sidMin : Int
  sidMax : Int
  predicateId : TermId
  deriving DecidableEq, Repr

/-- The store together with the statements catalog. -/
structure CataloguedStore where
  store : Store
  statements : UniqueTable StatementRange.sidMin

namespace CataloguedStore

open Store (initial)

/-- After installation. -/
def fresh : CataloguedStore := ⟨Store.initial, UniqueTable.empty StatementRange.sidMin⟩

/-- The part of a merge that replaces the predicate's range, with `COALESCE(MIN(i), 0)` and
`COALESCE(MAX(i), 0)` over the new main table. -/
def recordRange (p : TermId) (main : List Row) (statements : UniqueTable StatementRange.sidMin) :
    UniqueTable StatementRange.sidMin :=
  let newSidMin := (main.map Row.i).min?.getD 0
  let newSidMax := (main.map Row.i).max?.getD 0
  if 0 < newSidMin ∧ newSidMin ≤ newSidMax then
    (statements.deleteWhere fun r => r.predicateId = p).upsert ⟨newSidMin, newSidMax, p⟩
      (fun r => { r with sidMax := newSidMax, predicateId := p }) fun _ => rfl
  else statements

/-- A call of a storage operation. Only a merge writes to the catalog. -/
def apply (s : CataloguedStore) (op : Op) : CataloguedStore where
  store := op.apply s.store
  statements :=
    match op with
    | .mergePredicate _ p =>
      if s.store.isHtap p then recordRange p ((op.apply s.store).tables p).main s.statements
      else s.statements
    | _ => s.statements

/-- `SELECT predicate_id … WHERE sid_min <= $1 AND sid_max >= $1 ORDER BY sid_min DESC LIMIT 1`. -/
def predicateFromCatalog (s : CataloguedStore) (sid : Int) : Option TermId :=
  let covering := s.statements.rows.filter fun r => r.sidMin ≤ sid ∧ sid ≤ r.sidMax
  (@List.argmax _ _ Int.instLinearOrder.toPreorder _ StatementRange.sidMin covering).map
    StatementRange.predicateId

/-- `fetch_sog_by_sid`, on the view of a predicate. -/
def fetchSogBySid (st : Store) (p : TermId) (sid : Int) : Option Quad :=
  ((st.tables p).htapView.find? fun r => r.i = sid).map fun r => r.key.quad p

/-- `get_statement_by_sid`, before the ids are decoded. -/
def getStatementBySid (s : CataloguedStore) (sid : Int) : Option Quad :=
  (((s.predicateFromCatalog sid).bind fun p => fetchSogBySid s.store p sid).or
    (s.store.dedicatedPredicates.findSome? fun p => fetchSogBySid s.store p sid)).or
      ((s.store.rare.rows.find? fun r => r.i = sid).map RareRow.quad)

end CataloguedStore

namespace Store

variable {st st' : Store} {p : TermId} {t q : Quad} {sid i : Int} {session : Session}

/-- A view, or `vp_rare`, shows the quad under this id. -/
def ShownAs (st : Store) (t : Quad) (sid : Int) : Prop :=
  (st.tables t.p).ShowsAs t.key sid ∨ st.rareId t = some sid

theorem ShownAs.carries (h : st.ShownAs t sid) : st.Carries t sid := by
  obtain shown | rare := h
  · obtain ⟨⟨r, hr, key, id⟩, -⟩ := HtapTables.showsAs_iff.mp shown
    cases List.mem_append.mp hr with
    | inl main =>
      refine .inr (.inr ⟨r, ?_, key, id⟩)
      unfold HtapTables.viewMain at main
      split at main
      · exact List.mem_of_mem_filter main
      · exact main
    | inr delta => exact .inl (deltaId_eq_some_iff.mpr ⟨r, delta, key, id⟩)
  · exact .inr (.inl rare)

theorem fetchSogBySid_eq_some (h : CataloguedStore.fetchSogBySid st p sid = some t) :
    st.ShownAs t sid := by
  obtain ⟨r, found, rfl⟩ := Option.map_eq_some_iff.mp h
  refine .inl ⟨r, List.mem_of_find?_eq_some found, rfl, ?_⟩
  simpa using List.find?_some found

theorem fetchSogBySid_ne_none (h : (st.tables t.p).ShowsAs t.key sid) :
    CataloguedStore.fetchSogBySid st t.p sid ≠ none := by
  obtain ⟨r, hr, -, id⟩ := h
  intro none
  exact List.find?_eq_none.mp (Option.map_eq_none_iff.mp none) r hr (decide_eq_true id)

/-- A view that shows something belongs to a dedicated predicate. -/
theorem Layout.isDedicated_of_showsAs (h : st.Layout) (shown : (st.tables p).ShowsAs t.key sid) :
    st.isDedicated p = true := by
  cases h.predicate p with
  | inl used => exact used.dedicated
  | inr unused =>
    obtain ⟨r, hr, -, -⟩ := shown
    rw [unused.tables] at hr
    cases hr

end Store

namespace CataloguedStore

variable {s : CataloguedStore} {t : Quad} {sid : Int}

/-- The lookup answers with what is shown under the id, whatever the catalog says. -/
theorem getStatementBySid_eq_some_iff (layout : s.store.Layout) (owned : s.store.Owned) :
    s.getStatementBySid sid = some t ↔ s.store.ShownAs t sid := by
  have sound (t : Quad) (found : s.getStatementBySid sid = some t) : s.store.ShownAs t sid := by
    rw [getStatementBySid, Option.or_eq_some_iff, Option.or_eq_some_iff] at found
    obtain (catalog | ⟨-, scan⟩) | ⟨-, rare⟩ := found
    · obtain ⟨p, -, fetched⟩ := Option.bind_eq_some_iff.mp catalog
      exact Store.fetchSogBySid_eq_some fetched
    · obtain ⟨p, -, fetched⟩ := List.exists_of_findSome?_eq_some scan
      exact Store.fetchSogBySid_eq_some fetched
    · obtain ⟨r, found, rfl⟩ := Option.map_eq_some_iff.mp rare
      refine .inr (Store.rareId_eq_some_iff.mpr ⟨r, List.mem_of_find?_eq_some found, rfl, ?_⟩)
      simpa using List.find?_some found
  refine ⟨sound t, ?_⟩
  intro shown
  cases found : s.getStatementBySid sid with
  | some t' =>
    rw [owned.unique t' t sid (sound t' found).carries shown.carries]
  | none =>
    exfalso
    rw [getStatementBySid, Option.or_eq_none_iff, Option.or_eq_none_iff] at found
    obtain ⟨⟨-, scan⟩, rare⟩ := found
    obtain view | row := shown
    · have dedicated := layout.isDedicated_of_showsAs view
      have missed := List.findSome?_eq_none_iff.mp scan t.p
        (Store.mem_dedicatedPredicates.mpr dedicated)
      exact Store.fetchSogBySid_ne_none view missed
    · obtain ⟨r, hr, -, id⟩ := Store.rareId_eq_some_iff.mp row
      exact List.find?_eq_none.mp (Option.map_eq_none_iff.mp rare) r hr (decide_eq_true id)

end CataloguedStore

namespace Store

variable {st st' : Store} {p : TermId} {t q : Quad} {sid i : Int} {session : Session}

/-- The row is in the store, and no tombstone will remove it at the next merge. -/
def Kept (st : Store) (t : Quad) (sid : Int) : Prop :=
  st.deltaId t = some sid ∨ st.rareId t = some sid ∨ (st.MainId t sid ∧ ¬ st.Tombstoned t)

/-- A row of `main` that the installed view reads. -/
def ViewMainId (st : Store) (t : Quad) (i : Int) : Prop :=
  st.MainId t i ∧ (st.Skips t ∨ ¬ st.Tombstoned t)

/-- The view reads no row of the quad with a smaller id. -/
structure Least (st : Store) (t : Quad) (sid : Int) : Prop where
  delta : ∀ i, st.deltaId t = some i → sid ≤ i
  main : ∀ i, st.ViewMainId t i → sid ≤ i

theorem mem_ranks_view :
    i ∈ DistinctOn.Ranks Row.key Row.i
        ((st.tables t.p).viewMain ++ (st.tables t.p).delta.rows) t.key ↔
      st.ViewMainId t i ∨ st.deltaId t = some i := by
  rw [DistinctOn.ranks_append, Set.mem_union, deltaId_eq_some_iff]
  refine or_congr ?_ Iff.rfl
  simp only [DistinctOn.mem_ranks, HtapTables.viewMain, ViewMainId, MainId, Skips, Tombstoned]
  cases (st.tables t.p).view with
  | tombstoneSkip => simp
  | tombstoneAware =>
    simp only [HtapTables.mainMinusTombstones, List.mem_filter, decide_eq_true_eq, reduceCtorEq,
      false_or]
    constructor
    · rintro ⟨r, ⟨hr, live⟩, key, id⟩
      exact ⟨⟨r, hr, key, id⟩, key ▸ live⟩
    · rintro ⟨⟨r, hr, key, id⟩, live⟩
      exact ⟨r, ⟨hr, key ▸ live⟩, key, id⟩

theorem Least.of_not_dedicated (layout : st.Layout) (hp : st.isDedicated t.p = false) :
    st.Least t sid := by
  have tables := (layout.unusedAt hp).tables
  refine ⟨?_, ?_⟩
  · intro i row
    rw [deltaId, tables] at row
    cases row
  · rintro i ⟨⟨_, hr, -⟩, -⟩
    rw [tables] at hr
    cases hr

theorem rareId_of_dedicated (layout : st.Layout) (hp : st.isDedicated t.p = true) :
    st.rareId t = none := by
  refine rareId_eq_none_iff.mpr ?_
  intro old
  have stays := layout.rare t old
  rw [hp] at stays
  cases stays

theorem not_dedicated_of_rareId (layout : st.Layout) (row : st.rareId t = some sid) :
    st.isDedicated t.p = false := by
  cases hp : st.isDedicated t.p with
  | false => rfl
  | true =>
    rw [rareId_of_dedicated layout hp] at row
    cases row

/-- A row that is kept is the one that the quad is shown by, if no smaller one is read. -/
theorem Kept.shownAs_iff (kept : st.Kept t sid) (layout : st.Layout) :
    st.ShownAs t sid ↔ st.Least t sid := by
  constructor
  · rintro (view | rare)
    · obtain ⟨-, bound⟩ := HtapTables.showsAs_iff.mp view
      exact ⟨fun i row => bound (mem_ranks_view.mpr (.inr row)),
        fun i row => bound (mem_ranks_view.mpr (.inl row))⟩
    · exact .of_not_dedicated layout (not_dedicated_of_rareId layout rare)
  · intro least
    have view (row : st.ViewMainId t sid ∨ st.deltaId t = some sid) : st.ShownAs t sid := by
      refine .inl (HtapTables.showsAs_iff.mpr ⟨mem_ranks_view.mpr row, ?_⟩)
      intro i other
      exact (mem_ranks_view.mp other).elim (least.main i) (least.delta i)
    obtain row | row | row := kept
    · exact view (.inr row)
    · exact .inr row
    · exact view (.inl ⟨row.1, .inr row.2⟩)

/-- The id can be looked up, and merges will not change that. -/
structure Resolvable (st : Store) (t : Quad) (sid : Int) : Prop where
  layout : st.Layout
  owned : st.Owned
  kept : st.Kept t sid
  least : st.Least t sid

namespace Resolvable

theorem shownAs (h : st.Resolvable t sid) : st.ShownAs t sid :=
  (h.kept.shownAs_iff h.layout).mpr h.least

/-- An operation that is not about the quad. -/
theorem of_sameRows (h : st.Resolvable t sid) (same : SameRows t st st') (layout : st'.Layout)
    (owned : st'.Owned) : st'.Resolvable t sid := by
  refine ⟨layout, owned, ?_, ?_, ?_⟩
  · rw [Kept, same.delta, same.rare, same.main, same.tombstones]
    exact h.kept
  · intro i row
    exact h.least.delta i (same.delta ▸ row)
  · rintro i ⟨row, read⟩
    refine h.least.main i ⟨(same.main i).mp row, ?_⟩
    exact read.imp same.skips (mt same.tombstones.mpr)

/-- A quad whose predicate is not dedicated has its row in `vp_rare`. -/
theorem rareId (h : st.Resolvable t sid) (hp : st.isDedicated t.p = false) :
    st.rareId t = some sid := by
  have tables := (h.layout.unusedAt hp).tables
  obtain row | row | ⟨⟨_, hr, -⟩, -⟩ := h.kept
  · rw [deltaId, tables] at row
    cases row
  · exact row
  · rw [tables] at hr
    cases hr

theorem hasKey_rare (h : st.Resolvable t sid) (hp : st.isDedicated t.p = false) :
    st.rare.HasKey t := by
  obtain ⟨r, hr, same, -⟩ := rareId_eq_some_iff.mp (h.rareId hp)
  exact same ▸ UniqueTable.HasKey.of_mem hr

theorem promotePredicate (h : st.Resolvable t sid) : (st.promotePredicate p).Resolvable t sid := by
  have layout := h.layout.promotePredicate (p := p)
  have owned := h.owned.promotePredicate (p := p) h.layout
  by_cases hp : t.p = p
  · cases used : st.isDedicated t.p with
    | true =>
      -- nothing is left to move
      have none := rareId_of_dedicated h.layout used
      refine h.of_sameRows ⟨?_, ?_, ?_, ?_, ?_⟩ layout owned
      · rw [h.layout.deltaId_promotePredicate hp, none, Option.or_none]
      · rw [rareId_promotePredicate, if_pos hp, none]
      · exact fun i => (h.layout.main_promotePredicate hp).1
      · exact (h.layout.main_promotePredicate (i := 0) hp).2.1
      · exact (h.layout.main_promotePredicate (i := 0) hp).2.2.mp
    | false =>
      have tables := (h.layout.unusedAt used).tables
      have row : (st.promotePredicate p).deltaId t = some sid := by
        have empty : st.deltaId t = none := by
          rw [deltaId, tables]
          rfl
        rw [h.layout.deltaId_promotePredicate hp, empty, Option.none_or, h.rareId used]
      refine ⟨layout, owned, .inl row, ?_, ?_⟩
      · intro i other
        rw [row] at other
        cases other
        exact le_rfl
      · rintro i ⟨main, -⟩
        obtain ⟨_, hr, -⟩ := (h.layout.main_promotePredicate hp).1.mp main
        rw [tables] at hr
        cases hr
  · exact h.of_sameRows (sameRows_promotePredicate hp) layout owned

theorem mergePredicate {cfg : Config} (h : st.Resolvable t sid) :
    (Store.mergePredicate cfg p st).2.Resolvable t sid := by
  have layout : (Store.mergePredicate cfg p st).2.Layout := h.layout.mergePredicate
  have owned : (Store.mergePredicate cfg p st).2.Owned := h.owned.mergePredicate h.layout
  by_cases hp : t.p = p
  · subst hp
    cases h.layout.predicate t.p with
    | inr unused =>
      rw [unused.mergePredicate_eq]
      exact h
    | inl used =>
      have delta := used.deltaId_mergePredicate cfg
      have main (i : Int) := used.mainId_mergePredicate cfg i
      have found : (st.MainId t sid ∧ ¬ st.Tombstoned t) ∨ st.deltaId t = some sid := by
        obtain row | row | row := h.kept
        · exact .inr row
        · rw [rareId_of_dedicated h.layout used.dedicated] at row
          cases row
        · exact .inl row
      have bound (i : Int) (other : (st.MainId t i ∧ ¬ st.Tombstoned t) ∨
          st.deltaId t = some i) : sid ≤ i := by
        cases other with
        | inl row => exact h.least.main i ⟨row.1, .inr row.2⟩
        | inr row => exact h.least.delta i row
      refine ⟨layout, owned, .inr (.inr ⟨(main sid).mpr ?_, ?_⟩), ?_, ?_⟩
      · have least : IsLeast (DistinctOn.Ranks Row.key Row.i
            ((st.tables t.p).buildMain cfg) t.key) sid := by
          rw [HtapTables.isLeast_ranks_buildMain]
          exact ⟨mem_ranks_merged.mpr found, fun i other => bound i (mem_ranks_merged.mp other)⟩
        exact least.1
      · rw [Tombstoned, used.tables_mergePredicate]
        exact List.not_mem_nil
      · intro i row
        rw [delta] at row
        cases row
      · rintro i ⟨row, -⟩
        exact bound i (mem_ranks_of_buildMain ((main i).mp row))
  · exact h.of_sameRows (sameRows_mergePredicate cfg st hp) layout owned

theorem insertIntoVpRare (h : st.Resolvable t sid) (hp : st.isDedicated q.p = false) :
    (Store.insertIntoVpRare session q st).2.Resolvable t sid := by
  refine h.of_sameRows (sameRows_insertIntoVpRare ?_) (h.layout.insertIntoVpRare hp)
    h.owned.insertIntoVpRare
  by_cases other : t = q
  · subst other
    exact .inr (h.hasKey_rare hp)
  · exact .inl other

end Resolvable

/-- The row of `delta`, which an insert overwrites, is not the one with the id, and the session's
next id is larger. -/
def SparesInsert (st : Store) (session : Session) (t : Quad) (sid : Int) : Prop :=
  st.isDedicated t.p = true → st.deltaId t ≠ some sid ∧ sid < (st.seq.nextval session).1

theorem Resolvable.insertIntoDelta (h : st.Resolvable t sid) (hp : st.isDedicated q.p = true)
    (spares : q = t → st.SparesInsert session t sid) :
    (Store.insertIntoDelta session q st).2.Resolvable t sid := by
  have layout : (Store.insertIntoDelta session q st).2.Layout := h.layout.insertIntoDelta hp
  have owned : (Store.insertIntoDelta session q st).2.Owned := h.owned.insertIntoDelta
  by_cases other : t = q
  · subst other
    obtain ⟨free, larger⟩ := spares rfl hp
    have main (i : Int) := main_insertIntoDelta session t st i
    have row : st.MainId t sid ∧ ¬ st.Tombstoned t := by
      obtain row | row | row := h.kept
      · exact absurd row free
      · rw [rareId_of_dedicated h.layout hp] at row
        cases row
      · exact row
    refine ⟨layout, owned, .inr (.inr ⟨(main sid).1.mpr row.1, mt (main 0).2.1.mp row.2⟩), ?_, ?_⟩
    · intro i drawn
      rw [deltaId_insertIntoDelta] at drawn
      cases drawn
      exact larger.le
    · rintro i ⟨inMain, read⟩
      exact h.least.main i ⟨(main i).1.mp inMain, read.imp (main 0).2.2.mp (mt (main 0).2.1.mpr)⟩
  · exact h.of_sameRows (sameRows_insertIntoDelta other) layout owned

/-- An insert that does not spare the row replaces it, or puts a smaller id beside it. -/
theorem Resolvable.sparesInsert (h : st.Resolvable t sid) (hp : st.isDedicated t.p = true)
    (shown : (Store.insertIntoDelta session t st).2.ShownAs t sid) :
    st.SparesInsert session t sid := by
  have fresh : ¬ st.Carries t (st.seq.nextval session).1 :=
    h.owned.not_carries (h.owned.lawful.nextval session).pending
  have other : sid ≠ (st.seq.nextval session).1 := by
    rintro same
    rw [← same] at fresh
    exact fresh h.shownAs.carries
  have row := deltaId_insertIntoDelta session t st
  intro _
  refine ⟨?_, ?_⟩
  · intro old
    obtain held | held | held := shown.carries
    · rw [row] at held
      exact other (Option.some.inj held).symm
    · have before : st.rareId t = some sid := held
      rw [rareId_of_dedicated h.layout hp] at before
      cases before
    · exact h.owned.apart t sid old ((main_insertIntoDelta session t st sid).1.mp held)
  · obtain view | rare := shown
    · have bound := (HtapTables.showsAs_iff.mp view).2 (mem_ranks_view.mpr (.inr row))
      omega
    · have before : st.rareId t = some sid := rare
      rw [rareId_of_dedicated h.layout hp] at before
      cases before

/-- A batch does not touch a row of `delta`; beside one in `main` it puts a larger id. -/
def SparesBatch (st : Store) (session : Session) (keys : List Key) (t : Quad) (sid : Int) : Prop :=
  st.isDedicated t.p = true → st.deltaId t = none →
    ∀ i, firstStamp session keys t.key st = some i → sid < i

theorem Resolvable.batchIntoDelta {keys : List Key} (h : st.Resolvable t sid)
    (hp : st.isDedicated p = true) (spares : p = t.p → st.SparesBatch session keys t sid) :
    (Store.batchIntoDelta session p keys st).Resolvable t sid := by
  have layout : (Store.batchIntoDelta session p keys st).Layout := h.layout.batchIntoDelta hp
  have owned : (Store.batchIntoDelta session p keys st).Owned := h.owned.batchIntoDelta
  by_cases kept : t.p = p → t.key ∈ keys → st.deltaId t ≠ none
  · exact h.of_sameRows (sameRows_batchIntoDelta kept) layout owned
  · obtain ⟨same, -, free⟩ : t.p = p ∧ t.key ∈ keys ∧ st.deltaId t = none := by simpa using kept
    subst same
    have main (i : Int) := main_batchIntoDelta session keys st i (Eq.refl t.p)
    have row : st.MainId t sid ∧ ¬ st.Tombstoned t := by
      obtain row | row | row := h.kept
      · rw [free] at row
        cases row
      · rw [rareId_of_dedicated h.layout hp] at row
        cases row
      · exact row
    refine ⟨layout, owned, .inr (.inr ⟨(main sid).1.mpr row.1, mt (main 0).2.1.mp row.2⟩), ?_, ?_⟩
    · intro i drawn
      rw [deltaId_batchIntoDelta rfl, free, Option.none_or] at drawn
      exact (spares rfl hp free i drawn).le
    · rintro i ⟨inMain, read⟩
      exact h.least.main i ⟨(main i).1.mp inMain, read.imp (main 0).2.2.mp (mt (main 0).2.1.mpr)⟩

theorem Resolvable.sparesBatch {keys : List Key} (h : st.Resolvable t sid)
    (shown : (Store.batchIntoDelta session t.p keys st).ShownAs t sid) :
    st.SparesBatch session keys t sid := by
  intro hp free i first
  have fresh : ¬ st.Carries t i :=
    h.owned.not_carries (h.owned.lawful.stamp (mem_of_firstStamp first)).1
  have other : sid ≠ i := by
    rintro rfl
    exact fresh h.shownAs.carries
  have row : (Store.batchIntoDelta session t.p keys st).deltaId t = some i := by
    rw [deltaId_batchIntoDelta rfl, free, Option.none_or, first]
  obtain view | rare := shown
  · have bound := (HtapTables.showsAs_iff.mp view).2 (mem_ranks_view.mpr (.inr row))
    omega
  · have before : st.rareId t = some sid := rare
    rw [rareId_of_dedicated h.layout hp] at before
    cases before

theorem Resolvable.batchIntoVpRare {keys : List Key} (h : st.Resolvable t sid)
    (hp : st.isDedicated p = false) :
    (Store.batchIntoVpRare session p keys st).Resolvable t sid := by
  refine h.of_sameRows (sameRows_batchIntoVpRare ?_) (h.layout.batchIntoVpRare hp)
    h.owned.batchIntoVpRare
  rintro rfl -
  exact h.hasKey_rare hp

end Store

/-- The operation deletes the quad. -/
def Op.Deletes (t : Quad) : Op → Prop
  | .deleteTriple _ q => q = t
  | .deleteTripleByIds _ q => q = t
  | .clearGraphById _ g => g = t.g
  | .dropGraph _ g => g = t.g
  | _ => False

/-- The operation leaves the row with the id to be the smallest of the quad. -/
def Op.Spares (t : Quad) (sid : Int) (st : Store) : Op → Prop
  | .insertTriple _ session q => q = t → st.SparesInsert session t sid
  | .insertEncodedTriple session q => q = t → st.SparesInsert session t sid
  | .batchInsertEncoded session p keys => p = t.p → st.SparesBatch session keys t sid
  | _ => True

namespace Store

variable {st : Store} {t : Quad} {sid : Int} {session : Session}

theorem Resolvable.apply {op : Op} (h : st.Resolvable t sid) (kept : ¬ op.Deletes t)
    (spares : op.Spares t sid st) : (op.apply st).Resolvable t sid := by
  have layout := h.layout.apply op
  have owned := h.owned.apply h.layout op
  cases op with
  | insertTriple cfg session q =>
    rw [Op.apply, insertTriple]
    split
    · rename_i hp
      exact h.insertIntoDelta hp spares
    · rename_i hp
      have unused : st.isDedicated q.p = false := by simpa using hp
      dsimp only
      split
      · exact (h.insertIntoVpRare unused).promotePredicate
      · exact h.insertIntoVpRare unused
  | insertEncodedTriple session q =>
    rw [Op.apply, insertEncodedTriple]
    split
    · rename_i hp
      exact h.insertIntoDelta hp spares
    · rename_i hp
      exact h.insertIntoVpRare (by simpa using hp)
  | batchInsertEncoded session p keys =>
    rw [Op.apply, batchInsertEncoded]
    split
    · exact h
    · split
      · rename_i hp
        exact h.batchIntoDelta hp spares
      · rename_i hp
        exact h.batchIntoVpRare (by simpa using hp)
  | deleteTriple session q =>
    exact h.of_sameRows (sameRows_deleteQuad fun same => kept same.symm) layout owned
  | deleteTripleByIds session q =>
    exact h.of_sameRows (sameRows_deleteQuad fun same => kept same.symm) layout owned
  | promotePredicate p => exact h.promotePredicate
  | mergePredicate cfg p => exact h.mergePredicate
  | clearGraphById session g =>
    exact h.of_sameRows (sameRows_clearGraphById fun same => kept same.symm) layout owned
  | dropGraph session g =>
    exact h.of_sameRows (sameRows_dropGraph fun same => kept same.symm) layout owned

theorem Resolvable.spares {op : Op} (h : st.Resolvable t sid)
    (shown : (op.apply st).ShownAs t sid) : op.Spares t sid st := by
  cases op with
  | insertTriple cfg session q =>
    rintro rfl hp
    rw [Op.apply, insertTriple, if_pos hp] at shown
    exact h.sparesInsert hp shown hp
  | insertEncodedTriple session q =>
    rintro rfl hp
    rw [Op.apply, insertEncodedTriple, if_pos hp] at shown
    exact h.sparesInsert hp shown hp
  | batchInsertEncoded session p keys =>
    rintro rfl hp free i first
    have some_ : ¬ keys.isEmpty = true := by
      intro empty
      rw [List.isEmpty_iff.mp empty] at first
      cases first
    rw [Op.apply, batchInsertEncoded, if_neg some_, if_pos hp] at shown
    exact h.sparesBatch shown hp free i first
  | _ => trivial

/-- The view shows no row of `main` under a smaller id than the session draws next. -/
def FreshInsert (st : Store) (session : Session) (t : Quad) : Prop :=
  st.isDedicated t.p = true → ∀ i, st.ViewMainId t i → (st.seq.nextval session).1 < i

/-- The row that `insert_triple` wrote is there; it is the smallest one if the insert was fresh. -/
theorem resolvable_insertTriple_iff {cfg : Config} (layout : st.Layout) (owned : st.Owned)
    (written : (insertTriple cfg session t st).1 ≠ 0) :
    ((insertTriple cfg session t st).2.ShownAs t (insertTriple cfg session t st).1 ↔
        st.FreshInsert session t) ∧
      (st.FreshInsert session t →
        (insertTriple cfg session t st).2.Resolvable t (insertTriple cfg session t st).1) := by
  have layout' : (insertTriple cfg session t st).2.Layout := layout.insertTriple
  have owned' : (insertTriple cfg session t st).2.Owned := owned.insertTriple layout
  by_cases hp : st.isDedicated t.p = true
  · rw [insertTriple, if_pos hp] at layout' owned' ⊢
    have row := deltaId_insertIntoDelta session t st
    have main (i : Int) := main_insertIntoDelta session t st i
    have kept : (insertIntoDelta session t st).2.Kept t (st.seq.nextval session).1 := .inl row
    have view (i : Int) : (insertIntoDelta session t st).2.ViewMainId t i ↔ st.ViewMainId t i := by
      rw [ViewMainId, ViewMainId, (main i).1, (main i).2.1, (main i).2.2]
    have least : (insertIntoDelta session t st).2.Least t (st.seq.nextval session).1 ↔
        st.FreshInsert session t := by
      constructor
      · rintro bound - i old
        have lower := bound.main i ((view i).mpr old)
        have drawn := owned.lawful.nextval session
        have other : (st.seq.nextval session).1 ≠ i := by
          rintro rfl
          exact owned.not_carries drawn.pending (.inr (.inr old.1))
        omega
      · intro fresh
        refine ⟨?_, ?_⟩
        · intro i other
          rw [row] at other
          cases other
          exact le_rfl
        · intro i old
          exact (fresh hp i ((view i).mp old)).le
    refine ⟨(kept.shownAs_iff layout').trans least, ?_⟩
    intro fresh
    exact ⟨layout', owned', kept, least.mpr fresh⟩
  · have unused : st.isDedicated t.p = false := by simpa using hp
    have sid : (insertTriple cfg session t st).1 = (insertIntoVpRare session t st).1 := by
      rw [insertTriple, if_neg hp]
      dsimp only
      split
      · rfl
      · rfl
    have drawn : (insertIntoVpRare session t st).1 =
        if st.rare.HasKey t then 0 else (st.seq.nextval session).1 := by
      have same : (insertIntoVpRare session t st).1 = (insertRareRow session t st).1 := by
        simp only [insertIntoVpRare]
        split
        · rename_i zero
          exact zero.symm
        · rfl
      exact same
    rw [sid] at written ⊢
    have new : ¬ st.rare.HasKey t := by
      intro old
      rw [drawn, if_pos old] at written
      exact written rfl
    rw [if_neg new] at drawn
    have inRare : (insertIntoVpRare session t st).2.Resolvable t
        (insertIntoVpRare session t st).1 := by
      refine ⟨layout.insertIntoVpRare unused, owned.insertIntoVpRare, .inr (.inl ?_), ?_⟩
      · rw [drawn]
        exact rareId_insertIntoVpRare new
      · exact .of_not_dedicated (layout.insertIntoVpRare unused)
          ((layout.unusedAt unused).insertIntoVpRare).dedicated
    have resolvable : (insertTriple cfg session t st).2.Resolvable t
        (insertIntoVpRare session t st).1 := by
      rw [insertTriple, if_neg hp]
      dsimp only
      split
      · exact inRare.promotePredicate
      · exact inRare
    exact ⟨iff_of_true resolvable.shownAs fun dedicated => absurd dedicated hp,
      fun _ => resolvable⟩

end Store

namespace CataloguedStore

/-- Execute calls one after the other, from installation on. -/
def run (ops : List Op) : CataloguedStore := ops.foldl apply fresh

theorem layout_run (ops : List Op) : (run ops).store.Layout ∧ (run ops).store.Owned := by
  refine List.foldlRecOn (motive := fun s : CataloguedStore => s.store.Layout ∧ s.store.Owned) ops _
    ⟨Store.layout_initial, Store.owned_initial⟩ ?_
  rintro s ⟨layout, owned⟩ op -
  exact ⟨layout.apply op, owned.apply layout op⟩

/-- The id that `insert_triple` returned is found in all states that follow, as long as the quad
is not deleted, exactly if no visible row of the quad had a smaller id, and no later insert of the
quad overwrites the row or draws a smaller id. -/
theorem always_getStatementBySid_iff {before after : List Op} {cfg : Config} {session : Session}
    {t : Quad} (written : (Store.insertTriple cfg session t (run before).store).1 ≠ 0)
    (stays : ∀ op ∈ after, ¬ op.Deletes t) :
    Run.Always (fun s op => some (apply s op))
        (fun s =>
          s.getStatementBySid (Store.insertTriple cfg session t (run before).store).1 = some t)
        ((run before).apply (.insertTriple cfg session t)) after ↔
      (run before).store.FreshInsert session t ∧
        Run.Along (fun s op => some (apply s op))
          (fun s op =>
            op.Spares t (Store.insertTriple cfg session t (run before).store).1 s.store)
          ((run before).apply (.insertTriple cfg session t)) after := by
  obtain ⟨layout, owned⟩ := layout_run before
  obtain ⟨shown, resolvable⟩ := Store.resolvable_insertTriple_iff layout owned written
  generalize (Store.insertTriple cfg session t (run before).store).1 = sid at shown resolvable ⊢
  have found : ((run before).apply (.insertTriple cfg session t)).getStatementBySid sid = some t ↔
      (run before).store.FreshInsert session t := by
    rw [getStatementBySid_eq_some_iff (layout.apply (.insertTriple cfg session t))
      (owned.apply layout (.insertTriple cfg session t))]
    exact shown
  by_cases fresh : (run before).store.FreshInsert session t
  · rw [and_iff_right fresh]
    refine Run.always_iff_along (fun s => s.store.Resolvable t sid) ?_ ?_
      (resolvable fresh) (found.mpr fresh)
    · intro s op member s' h spares stepped
      cases stepped
      exact h.apply (stays op member) spares
    · intro s op member h _
      constructor
      · intro spares s' stepped
        cases stepped
        have next := h.apply (stays op member) spares
        exact (getStatementBySid_eq_some_iff next.layout next.owned).mpr next.shownAs
      · intro next
        apply h.spares
        exact (getStatementBySid_eq_some_iff (h.layout.apply op) (h.owned.apply h.layout op)).mp
          (next _ rfl)
  · refine iff_of_false ?_ fun both => fresh both.1
    intro always
    apply fresh
    apply found.mp
    cases after with
    | nil => exact always
    | cons _ _ => exact always.1

/-- A statement is found after promotion, after a merge, and after a quad beside it is written and
merged. -/
theorem always_getStatementBySid_merged :
    Run.Always (fun s op => some (apply s op))
      (fun s => s.getStatementBySid (Store.insertTriple ⟨1000, true, 0⟩ 0 ⟨1, 2, 3, 0⟩
        (run []).store).1 = some ⟨1, 2, 3, 0⟩)
      ((run []).apply (.insertTriple ⟨1000, true, 0⟩ 0 ⟨1, 2, 3, 0⟩))
      [.promotePredicate 2, .mergePredicate ⟨1000, true, 0⟩ 2,
        .insertTriple ⟨1000, true, 0⟩ 1 ⟨1, 2, 4, 0⟩, .mergePredicate ⟨1000, false, 0⟩ 2] := by
  refine (always_getStatementBySid_iff (by decide) ?_).mpr ⟨?_, ?_⟩
  · simp [Op.Deletes]
  · intro dedicated
    cases dedicated
  · simp [Run.Along, Op.Spares]

/-- Written again after a merge, the quad gets a second id, which the view does not show. -/
theorem getStatementBySid_eq_none :
    (Store.insertTriple ⟨1000, true, 0⟩ 0 ⟨1, 2, 3, 0⟩ (run [.insertTriple ⟨1000, true, 0⟩ 0
        ⟨1, 2, 3, 0⟩, .promotePredicate 2, .mergePredicate ⟨1000, true, 0⟩ 2]).store).1 = 2 ∧
      ((run [.insertTriple ⟨1000, true, 0⟩ 0 ⟨1, 2, 3, 0⟩, .promotePredicate 2,
        .mergePredicate ⟨1000, true, 0⟩ 2]).apply
          (.insertTriple ⟨1000, true, 0⟩ 0 ⟨1, 2, 3, 0⟩)).getStatementBySid 2 = none := by
  decide

end CataloguedStore

end PgRipple.Storage
