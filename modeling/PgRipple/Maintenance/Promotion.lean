import PgRipple.Storage.Sited
import Mathlib.Data.List.Sort

/-!
# Promotion and its recovery

`promote_predicate` issues four statements: it marks the catalog row, creates the tables, moves the
rows of the predicate from `vp_rare` to `delta` and records the result. An interruption leaves the
effect of the first few of them; with the transaction that PostgreSQL puts around a call it is none
of them. `recover_interrupted_promotions` promotes every marked predicate again.

After each statement the quads that can be seen are the same, because the one that moves rows adds
to `delta` what it takes from `vp_rare`, and a row in `delta` is visible whatever `main` and the
tombstones hold.
-/

namespace PgRipple

namespace Storage.Store

/-- `WITH moved AS (DELETE FROM vp_rare WHERE p = $1 RETURNING …) INSERT INTO delta …
ON CONFLICT (s, o, g) DO NOTHING`. -/
def moveRareRows (st : Store) (p : TermId) : Store :=
  let moved := (st.rare.rows.filter fun r => r.quad.p = p).map
    fun r => (⟨r.quad.key, r.i, r.source⟩ : Row)
  let t := st.tables p
  { st with rare := st.rare.deleteWhere fun r => r.quad.p = p }.setTables p
    { t with delta := t.delta.insertAll moved }

/-- `SET triple_count = (SELECT count(*) FROM delta), table_oid = …`. -/
def recordPromotion (st : Store) (p : TermId) : Store :=
  st.updatePredicate p fun r =>
    { r with tripleCount := (st.tables p).delta.rows.length, hasTable := true }

variable {st : Store} {p : TermId} {q : Quad}

/-- Promotion as a whole is these statements after one another. -/
theorem promotePredicate_eq :
    st.promotePredicate p = ((st.ensureVpTable p).moveRareRows p).recordPromotion p := by
  simp [promotePredicate, moveRareRows, recordPromotion]

theorem tables_moveRareRows : (st.moveRareRows p).tables p =
    { st.tables p with delta := (st.tables p).delta.insertAll (st.rareRowsOf p) } := by
  simp [moveRareRows, rareRowsOf]

theorem rare_moveRareRows : (st.moveRareRows p).rare.HasKey q ↔ st.rare.HasKey q ∧ q.p ≠ p := by
  have deleted := UniqueTable.hasKey_deleteWhere (t := st.rare) (k := q) fun q => decide (q.p = p)
  simp only [decide_eq_false_iff_not] at deleted
  exact deleted

/-- No reader notices the change, `vp_rare` gets no new rows, and no catalog row goes. -/
structure Unnoticed (st st' : Store) : Prop where
  sited : st'.Sited
  visible : ∀ q, st'.Visible q ↔ st.Visible q
  rare : ∀ q, st'.rare.HasKey q → st.rare.HasKey q
  catalog : ∀ p, st.predicates.HasKey p → st'.predicates.HasKey p

theorem Unnoticed.refl (h : st.Sited) : Unnoticed st st :=
  ⟨h, fun _ => Iff.rfl, fun _ => id, fun _ => id⟩

theorem Unnoticed.trans {st' st'' : Store} (first : Unnoticed st st')
    (second : Unnoticed st' st'') : Unnoticed st st'' where
  sited := second.sited
  visible q := (second.visible q).trans (first.visible q)
  rare q hq := first.rare q (second.rare q hq)
  catalog p hp := second.catalog p (first.catalog p hp)

theorem seq_ensureVpTable : (st.ensureVpTable p).seq = st.seq := by
  unfold ensureVpTable
  split <;> rfl

/-- The tables that are created are empty. -/
theorem Sited.unnoticed_ensureVpTable (h : st.Sited) (p : TermId) :
    Unnoticed st (st.ensureVpTable p) where
  sited := by
    refine h.of_onlyAt onlyAt_ensureVpTable ⟨fun _ => hasKey_ensureVpTable, ?_⟩ ?_
      (.inl (dedicatedAt_ensureVpTable (h.predicate p)))
    · intro q hq
      rw [rare_ensureVpTable] at hq
      exact .inl hq
    · rw [seq_ensureVpTable]
      exact h.seq
  visible q := by
    have rare : (st.ensureVpTable p).rare.HasKey q ↔ st.rare.HasKey q := by
      rw [rare_ensureVpTable]
    by_cases same : q.p = p
    · subst same
      rw [Visible, Visible, rare, tables_ensureVpTable (h.predicate q.p),
        (dedicatedAt_ensureVpTable (h.predicate q.p)).dedicated]
      obtain used | unused := h.predicate q.p
      · rw [used.dedicated]
      · simp [unused.tables]
    · exact onlyAt_ensureVpTable.visible_iff same rare
  rare q hq := by rwa [rare_ensureVpTable] at hq
  catalog _ := hasKey_ensureVpTable

theorem DedicatedAt.moveRareRows (h : st.DedicatedAt p) : (st.moveRareRows p).DedicatedAt p := by
  have deleted : { st with rare := st.rare.deleteWhere fun r => r.quad.p = p }.DedicatedAt p :=
    h.of_eq rfl rfl le_rfl
  exact deleted.setDelta _

theorem onlyAt_moveRareRows : OnlyAt p st (st.moveRareRows p) := by
  have deleted : OnlyAt p st { st with rare := st.rare.deleteWhere fun r => r.quad.p = p } :=
    .of_eq p rfl rfl le_rfl
  exact deleted.trans onlyAt_setTables

/-- What the move takes from `vp_rare` is in `delta` afterwards, if it was not before. -/
theorem Sited.unnoticed_moveRareRows (h : st.Sited) (hp : st.isDedicated p = true) :
    Unnoticed st (st.moveRareRows p) where
  sited := by
    refine h.of_onlyAt onlyAt_moveRareRows ?_ h.seq (.inl (h.dedicatedAt hp).moveRareRows)
    exact .of_rare (fun _ => id) fun _ hq => (rare_moveRareRows.mp hq).1
  visible q := by
    by_cases same : q.p = p
    · subst same
      have moved : ((st.moveRareRows q.p).tables q.p).Shows q.key ↔
          (st.tables q.p).Shows q.key ∨ st.rare.HasKey q := by
        rw [tables_moveRareRows, HtapTables.shows_iff, HtapTables.shows_iff]
        simp only [HtapTables.InDelta, UniqueTable.hasKey_insertAll, mem_map_key_rareRowsOf,
          Quad.key_quad, ← or_assoc]
        exact Iff.rfl
      rw [Visible, Visible, (h.dedicatedAt hp).moveRareRows.dedicated, hp, rare_moveRareRows, moved]
      simp
    · have rare : (st.moveRareRows p).rare.HasKey q ↔ st.rare.HasKey q := by
        rw [rare_moveRareRows]
        exact and_iff_left same
      exact onlyAt_moveRareRows.visible_iff same rare
  rare q hq := (rare_moveRareRows.mp hq).1
  catalog _ := id

theorem Sited.unnoticed_recordPromotion (h : st.Sited) (hp : st.isDedicated p = true) :
    Unnoticed st (st.recordPromotion p) := by
  have here : (st.recordPromotion p).DedicatedAt p :=
    (h.dedicatedAt hp).updatePredicate (fun _ _ => rfl) (fun _ => rfl) fun _ => id
  refine ⟨?_, ?_, fun _ => id, fun _ => hasKey_updatePredicate.mpr⟩
  · exact h.of_onlyAt onlyAt_updatePredicate
      (.of_rare (fun _ => hasKey_updatePredicate.mpr) fun _ => id) h.seq (.inl here)
  · intro q
    by_cases same : q.p = p
    · rw [Visible, Visible, same, here.dedicated, hp]
      exact Iff.rfl
    · exact onlyAt_updatePredicate.visible_iff same Iff.rfl

/-- Wherever a promotion stops, no reader notices. -/
theorem Sited.unnoticed_promotePredicate (h : st.Sited) (p : TermId) :
    Unnoticed st (st.promotePredicate p) := by
  have created := h.unnoticed_ensureVpTable p
  have used : (st.ensureVpTable p).DedicatedAt p := dedicatedAt_ensureVpTable (h.predicate p)
  have moved := created.sited.unnoticed_moveRareRows used.dedicated
  rw [promotePredicate_eq]
  exact (created.trans moved).trans
    (moved.sited.unnoticed_recordPromotion used.moveRareRows.dedicated)

end Storage.Store

namespace Maintenance

open Storage

/-- The values of `promotion_status`; `NULL` is `none`. -/
inductive PromotionStatus where
  | promoting
  | promoted
  deriving DecidableEq, Repr

/-- The store with the column `promotion_status` of its catalog. -/
structure PromotionStore where
  store : Store
  status : TermId → Option PromotionStatus

/-- The statements of `promote_predicate` that write to the store. -/
inductive PromotionStatement where
  | markPromoting
  | ensureVpTable
  | moveRareRows
  | recordPromotion

namespace PromotionStore

/-- After installation. -/
def fresh : PromotionStore := ⟨Store.initial, fun _ => none⟩

/-- `UPDATE _pg_ripple.predicates SET promotion_status = … WHERE id = $1`. -/
def setStatus (p : TermId) (status : PromotionStatus) (s : PromotionStore) : PromotionStore :=
  if (s.store.tableOid p).isSome then
    { s with status := Function.update s.status p (some status) }
  else s

/-- Execute one statement. -/
def exec (p : TermId) (s : PromotionStore) : PromotionStatement → PromotionStore
  | .markPromoting => s.setStatus p .promoting
  | .ensureVpTable => { s with store := s.store.ensureVpTable p }
  | .moveRareRows => { s with store := s.store.moveRareRows p }
  | .recordPromotion => { s with store := s.store.recordPromotion p }.setStatus p .promoted

/-- The body of `promote_predicate_impl`. -/
def promotion : List PromotionStatement :=
  [.markPromoting, .ensureVpTable, .moveRareRows, .recordPromotion]

/-- `promote_predicate`, up to its first `n` statements. -/
def interrupted (p : TermId) (n : Nat) (s : PromotionStore) : PromotionStore :=
  (promotion.take n).foldl (exec p) s

/-- `promote_predicate`. -/
def promotePredicate (p : TermId) (s : PromotionStore) : PromotionStore :=
  promotion.foldl (exec p) s

/-- `SELECT id FROM _pg_ripple.predicates WHERE promotion_status = 'promoting' ORDER BY id`. -/
def promotingIds (s : PromotionStore) : List TermId :=
  ((s.store.predicates.rows.map PredicateRow.id).filter
    fun p => s.status p = some .promoting).insertionSort (· ≤ ·)

/-- `recover_interrupted_promotions`: the number of promotions that it ran. -/
def recoverInterruptedPromotions (s : PromotionStore) : Int × PromotionStore :=
  (s.promotingIds.length, s.promotingIds.foldl (fun s p => s.promotePredicate p) s)

/-- `SELECT p FROM vp_rare GROUP BY p HAVING count(*) >= $1`. -/
def promotableIds (threshold : Int) (st : Store) : List TermId :=
  (st.rare.rows.map fun r => r.quad.p).eraseDups.filter fun p =>
    threshold ≤ (st.rare.rows.filter fun r => r.quad.p = p).length

/-- `promote_rare_predicates`: the number of promotions. -/
def promoteRarePredicates (threshold : Int) (s : PromotionStore) : Int × PromotionStore :=
  let ids := promotableIds threshold s.store
  (ids.length, ids.foldl (fun s p => s.promotePredicate p) s)

variable {s s' : PromotionStore} {p : TermId} {n : Nat} {status : PromotionStatus}

@[simp] theorem store_setStatus : (s.setStatus p status).store = s.store := by
  unfold setStatus
  split <;> rfl

theorem store_promotePredicate : (s.promotePredicate p).store = s.store.promotePredicate p := by
  simp [promotePredicate, promotion, exec, Store.promotePredicate_eq]

/-- Nothing follows the fourth statement. -/
theorem interrupted_of_le (h : 4 ≤ n) : s.interrupted p n = s.promotePredicate p := by
  rw [interrupted, List.take_of_length_le h, promotePredicate]

theorem unnoticed_interrupted (h : s.store.Sited) (p : TermId) (n : Nat) :
    Store.Unnoticed s.store (s.interrupted p n).store := by
  have created := h.unnoticed_ensureVpTable p
  obtain _ | _ | _ | _ | n := n
  · exact .refl h
  · have same : (s.interrupted p 1).store = s.store := store_setStatus
    rw [same]
    exact .refl h
  · have same : (s.interrupted p 2).store = s.store.ensureVpTable p := by
      simp [interrupted, promotion, exec]
    rw [same]
    exact created
  · have same : (s.interrupted p 3).store = (s.store.ensureVpTable p).moveRareRows p := by
      simp [interrupted, promotion, exec]
    rw [same]
    exact created.trans (created.sited.unnoticed_moveRareRows
      (Store.dedicatedAt_ensureVpTable (h.predicate p)).dedicated)
  · rw [interrupted_of_le (Nat.le_add_left 4 n), store_promotePredicate]
    exact h.unnoticed_promotePredicate p

/-- From the first statement to the last but one, the mark of a registered predicate stands. -/
theorem status_interrupted (registered : s.store.predicates.HasKey p) (start : 0 < n)
    (stop : n < 4) :
    (s.interrupted p n).status p = some .promoting := by
  have marked : (s.setStatus p .promoting).status p = some .promoting := by
    have row : (s.store.tableOid p).isSome = true := by
      rw [Store.tableOid, Option.isSome_map, Option.isSome_iff_ne_none]
      exact mt UniqueTable.find?_eq_none_iff.mp (not_not.mpr registered)
    rw [setStatus, if_pos row]
    exact Function.update_self ..
  obtain rfl | rfl | rfl : n = 1 ∨ n = 2 ∨ n = 3 := by omega
  · exact marked
  · exact marked
  · exact marked

/-- Promoting one predicate after the other moves the rows of all of them. -/
theorem unnoticed_promoteAll (ids : List TermId) (h : s.store.Sited) :
    Store.Unnoticed s.store (ids.foldl (fun s p => s.promotePredicate p) s).store := by
  induction ids generalizing s with
  | nil => exact .refl h
  | cons p ids ih =>
    have first : Store.Unnoticed s.store (s.promotePredicate p).store := by
      rw [store_promotePredicate]
      exact h.unnoticed_promotePredicate p
    exact first.trans (ih first.sited)

theorem rare_promoteAll {ids : List TermId} {q : Quad} :
    (ids.foldl (fun s p => s.promotePredicate p) s).store.rare.HasKey q ↔
      s.store.rare.HasKey q ∧ q.p ∉ ids := by
  induction ids generalizing s with
  | nil => simp
  | cons p ids ih =>
    rw [List.foldl_cons, ih, store_promotePredicate, Store.rare_promotePredicate, and_assoc,
      List.mem_cons, not_or]

theorem mem_promotingIds :
    p ∈ s.promotingIds ↔ s.store.predicates.HasKey p ∧ s.status p = some .promoting := by
  rw [promotingIds, List.mem_insertionSort, List.mem_filter, decide_eq_true_eq]
  exact Iff.rfl

/-- What promotion of `p` owes to the readers. -/
structure Preserved (p : TermId) (before after : Store) : Prop where
  visible : ∀ q, after.Visible q ↔ before.Visible q
  moved : ∀ q, after.rare.HasKey q → q.p ≠ p
  shown : ∀ q, q.p = p → after.Visible q →
    after.isDedicated p = true ∧ (after.tables p).Shows q.key

/-- A quad of `p` that is not in `vp_rare` can only be seen through the view. -/
theorem preserved_of_unnoticed {before after : Store} (unnoticed : Store.Unnoticed before after)
    (moved : ∀ q, after.rare.HasKey q → q.p ≠ p) : Preserved p before after := by
  refine ⟨unnoticed.visible, moved, ?_⟩
  intro q same visible
  obtain shown | rare := visible
  · rwa [same] at shown
  · exact absurd same (moved q rare)

theorem preserved_promotePredicate (h : s.store.Sited) (p : TermId) :
    Preserved p s.store (s.promotePredicate p).store := by
  rw [store_promotePredicate]
  apply preserved_of_unnoticed (h.unnoticed_promotePredicate p)
  intro q hq
  exact (Store.rare_promotePredicate.mp hq).2

/-- After an interruption at any point behind the mark, recovery completes the promotion. -/
theorem preserved_recover (h : s.store.Sited) (start : 0 < n) :
    Preserved p s.store (s.interrupted p n).recoverInterruptedPromotions.2.store := by
  have stopped := unnoticed_interrupted h p n
  have recovered := unnoticed_promoteAll (s.interrupted p n).promotingIds stopped.sited
  apply preserved_of_unnoticed (stopped.trans recovered)
  intro q hq same
  obtain ⟨left, unmarked⟩ := rare_promoteAll.mp hq
  have registered : s.store.predicates.HasKey p := same ▸ h.registered q (stopped.rare q left)
  obtain early | late := Nat.lt_or_ge n 4
  · apply unmarked
    rw [same, mem_promotingIds]
    exact ⟨stopped.catalog p registered, status_interrupted registered start early⟩
  · rw [interrupted_of_le late, store_promotePredicate] at left
    exact (Store.rare_promotePredicate.mp left).2 same

/-- The predicate that an operation promotes on its way. -/
def promotedBy (st : Store) : Op → Option TermId
  | .promotePredicate p => some p
  | .insertTriple cfg session q =>
    if st.isDedicated q.p then none
    else if cfg.vpPromotionThreshold ≤ (Store.insertIntoVpRare session q st).2.tripleCount q.p then
      some q.p
    else none
  | _ => none

/-- What can happen to the store. -/
inductive Event where
  | operation (op : Op)
  /-- An inference run inserts what it found for one predicate. -/
  | materialise (session : Session) (found : List Quad) (p : TermId)
  | interrupted (p : TermId) (n : Nat)
  | recoverInterruptedPromotions
  | promoteRarePredicates (threshold : Int)

/-- The store after an event. -/
def apply (s : PromotionStore) : Event → PromotionStore
  | .operation op =>
    let s' : PromotionStore := { s with store := op.apply s.store }
    match promotedBy s.store op with
    | some p => s'.setStatus p .promoted
    | none => s'
  | .materialise session found p =>
    { s with store := (Datalog.materialisePred session found (0, s.store) p).2 }
  | .interrupted p n => s.interrupted p n
  | .recoverInterruptedPromotions => s.recoverInterruptedPromotions.2
  | .promoteRarePredicates threshold => (s.promoteRarePredicates threshold).2

/-- Execute events one after the other on a fresh store. -/
def run (events : List Event) : PromotionStore := events.foldl apply fresh

theorem sited_apply (h : s.store.Sited) (e : Event) : (s.apply e).store.Sited := by
  cases e with
  | operation op =>
    simp only [apply]
    split
    · rw [store_setStatus]
      exact h.apply op
    · exact h.apply op
  | materialise session found p =>
    have start : ((0, s.store) : Int × Store).2.Sited := h
    exact start.materialisePred
  | interrupted p n => exact (unnoticed_interrupted h p n).sited
  | recoverInterruptedPromotions => exact (unnoticed_promoteAll _ h).sited
  | promoteRarePredicates threshold => exact (unnoticed_promoteAll _ h).sited

theorem sited_run (events : List Event) : (run events).store.Sited := by
  refine List.foldlRecOn (motive := fun s : PromotionStore => s.store.Sited) events _
    Store.sited_initial ?_
  intro s h e _
  exact sited_apply h e

/-- In every store that operations, inference, interrupted promotions and recoveries lead to, a
promotion of `p` preserves the visible quads of all predicates, empties `vp_rare` of `p` and leaves
every quad of `p` in its view. The same holds when it stops after any statement behind the mark and
is recovered, and when it stops anywhere and is called again; no interruption is noticed. -/
theorem promotion_preserves (events : List Event) (p : TermId) :
    let s := run events
    Preserved p s.store (s.promotePredicate p).store ∧
      ∀ n, (∀ q, (s.interrupted p n).store.Visible q ↔ s.store.Visible q) ∧
        (∀ q, (s.interrupted p n).recoverInterruptedPromotions.2.store.Visible q ↔
          s.store.Visible q) ∧
        (0 < n →
          Preserved p s.store (s.interrupted p n).recoverInterruptedPromotions.2.store) ∧
        Preserved p s.store ((s.interrupted p n).promotePredicate p).store := by
  intro s
  have h : s.store.Sited := sited_run events
  refine ⟨preserved_promotePredicate h p, ?_⟩
  intro n
  have stopped := unnoticed_interrupted h p n
  have recovered := unnoticed_promoteAll (s.interrupted p n).promotingIds stopped.sited
  refine ⟨stopped.visible, (stopped.trans recovered).visible, preserved_recover h, ?_⟩
  have again := preserved_promotePredicate stopped.sited p
  exact ⟨fun q => (again.visible q).trans (stopped.visible q), again.moved, again.shown⟩

/-- A promotion that stops before its rows are moved is completed by recovery. -/
theorem promotion_preserves_interrupted :
    let s := run [.operation (.insertEncodedTriple 0 ⟨1, 2, 3, 0⟩)]
    (s.interrupted 2 2).store.rare.HasKey ⟨1, 2, 3, 0⟩ ∧
      (s.interrupted 2 2).promotingIds = [2] ∧
      Preserved 2 s.store (s.interrupted 2 2).recoverInterruptedPromotions.2.store :=
  ⟨by decide, by decide, ((promotion_preserves _ 2).2 2).2.2.1 (by decide)⟩

end PromotionStore

end Maintenance

end PgRipple
