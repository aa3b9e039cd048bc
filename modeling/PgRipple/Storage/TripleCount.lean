import PgRipple.Storage.Correctness
import PgRipple.Storage.Ids
import PgRipple.Lib.Run
import Mathlib.Data.Finset.Card

/-!
# The triple counter

`triple_count` is kept by every operation on its own. Inserting into `delta` counts the call and
not the row; a batch counts the rows it was given; a delete counts the copies in `main`; clearing a
graph does the same, and forgets `vp_rare`; a merge and a promotion set the counter to the size of
one table. The counter equals the number of visible quads as long as none of these differ from
what the view shows, which `Op.KeepsCount` says for each operation.
-/

namespace PgRipple.Storage

namespace Store

/-- The distinct visible quads of a predicate: its view together with `vp_rare`. -/
def visibleKeys (st : Store) (p : TermId) : Finset Key :=
  ((if st.isDedicated p then (st.tables p).htapView.map Row.key else []) ++
    (st.rareRowsOf p).map Row.key).toFinset

/-- `triple_count` is the number of visible quads of the predicate. -/
structure Counted (st : Store) (p : TermId) : Prop where
  exact_ : st.tripleCount p = (st.visibleKeys p).card
  nonneg : 0 ≤ st.tripleCount p

/-- The counter is right for every predicate. -/
def CountsRight (st : Store) : Prop := ∀ p, st.Counted p

variable {st st' : Store} {p p' : TermId} {session : Session} {q : Quad} {g : TermId} {k : Key}
  {keys : List Key}

@[simp] theorem mem_visibleKeys : k ∈ st.visibleKeys p ↔ st.Visible (k.quad p) := by
  rw [visibleKeys, List.mem_toFinset, List.mem_append, mem_map_key_rareRowsOf, Visible]
  by_cases dedicated : st.isDedicated p = true
  · simp [dedicated, HtapTables.Shows]
  · simp [dedicated]

theorem counted_iff : st.Counted p ↔ st.tripleCount p = (st.visibleKeys p).card := by
  constructor
  · exact fun h => h.exact_
  · intro h
    refine ⟨h, ?_⟩
    rw [h]
    exact Int.natCast_nonneg _

/-- Predicates that an operation leaves alone keep their counter and their quads. -/
theorem OnlyAt.counted_iff (h : OnlyAt p st st') (other : p' ≠ p)
    (rare : ∀ k : Key, st'.rare.HasKey (k.quad p') ↔ st.rare.HasKey (k.quad p')) :
    st'.Counted p' ↔ st.Counted p' := by
  have same : st'.visibleKeys p' = st.visibleKeys p' := by
    ext k
    rw [mem_visibleKeys, mem_visibleKeys]
    exact h.visible_iff other (rare k)
  rw [Store.counted_iff, Store.counted_iff, same, tripleCount, tripleCount, h.catalog p' other]

/-- An operation on one predicate has to be right there. -/
theorem CountsRight.of_onlyAt_iff (h : st.CountsRight) (only : OnlyAt p st st')
    (rare : ∀ q : Quad, q.p ≠ p → (st'.rare.HasKey q ↔ st.rare.HasKey q)) :
    st'.CountsRight ↔ st'.Counted p := by
  constructor
  · exact fun right => right p
  · intro here p'
    by_cases other : p' = p
    · rw [other]
      exact here
    · exact (only.counted_iff other fun k => rare _ other).mpr (h p')

theorem tripleCount_addTripleCount (h : st.DedicatedAt p) {n : Int} :
    (st.addTripleCount p n).tripleCount p = st.tripleCount p + n := by
  obtain ⟨r, found, -, -⟩ := h.exists_row
  simp [addTripleCount, tripleCount, find?_updatePredicate, found]

/-- A counter never goes below `0`, and rows that are not there are not subtracted. -/
theorem tripleCount_subtractTripleCount (nonneg : 0 ≤ st.tripleCount p) {n : Nat} :
    (st.subtractTripleCount p n).tripleCount p = st.tripleCount p - min (n : Int)
    (st.tripleCount p) := by
  rw [subtractTripleCount]
  cases found : st.predicates.find? p with
  | none =>
    have zero : st.tripleCount p = 0 := by simp [tripleCount, found]
    have after : (st.updatePredicate p fun r =>
        { r with tripleCount := max 0 (r.tripleCount - n) }).tripleCount p = 0 := by
      simp [tripleCount, find?_updatePredicate, found]
    split <;> omega
  | some r =>
    have before : st.tripleCount p = r.tripleCount := by simp [tripleCount, found]
    have after : (st.updatePredicate p fun r =>
        { r with tripleCount := max 0 (r.tripleCount - n) }).tripleCount p =
          max 0 (r.tripleCount - n) := by
      simp [tripleCount, find?_updatePredicate, found]
    split <;> omega

theorem tripleCount_addTombstoneCount {n : Int} :
    (st.addTombstoneCount p n).tripleCount p' = st.tripleCount p' := by
  have same : (st.updatePredicate p fun r =>
      { r with tombstoneCount := r.tombstoneCount + n }).tripleCount p' = st.tripleCount p' := by
    simp only [tripleCount, find?_updatePredicate]
    split
    · cases st.predicates.find? p' <;> rfl
    · rfl
  simp only [addTombstoneCount]
  split
  · exact same
  · exact same

theorem tripleCount_upsertRarePredicate {n : Int} :
    (st.upsertRarePredicate p n).tripleCount p = st.tripleCount p + n := by
  simp only [upsertRarePredicate, tripleCount, UniqueTable.find?_upsert]
  cases st.predicates.find? p <;> simp

theorem tripleCount_promotePredicate (here : st.DedicatedAt p ∨ st.UnusedAt p) :
    (st.promotePredicate p).tripleCount p =
      ((st.tables p).delta.insertAll (st.rareRowsOf p)).rows.length := by
  obtain ⟨r, found, -, -⟩ := (dedicatedAt_ensureVpTable here).exists_row
  simp [promotePredicate, tripleCount, find?_updatePredicate, found, tables_ensureVpTable here,
    rare_ensureVpTable, rareRowsOf]

theorem tripleCount_mergePredicate {cfg : Config} (h : st.DedicatedAt p) :
    (mergePredicate cfg p st).2.tripleCount p = ((st.tables p).buildMain cfg).length := by
  obtain ⟨r, found, -, -⟩ := h.exists_row
  have kept (st : Store) (maxSid : Int) :
      (clearTombstones cfg maxSid p st).predicates.find? p = none ↔
        st.predicates.find? p = none := by
    simp only [clearTombstones]
    split
    · simp [find?_updatePredicate]
    · rfl
  rw [mergePredicate, if_pos h.htap]
  simp only [setTripleCount, tripleCount, find?_updatePredicate, if_true]
  cases after : (clearTombstones cfg st.seq.lastValue p _).predicates.find? p with
  | none =>
    have absent := (kept _ _).mp after
    simp [found] at absent
  | some r => rfl

theorem CountsRight.tripleCount (h : st.CountsRight) (p : TermId) :
    st.tripleCount p = (st.visibleKeys p).card := (h p).exact_

/-- Into `delta`: every call is counted. -/
theorem CountsRight.insertIntoDelta_iff (h : st.CountsRight) (layout : st.Layout)
    (hp : st.isDedicated q.p = true) :
    (insertIntoDelta session q st).2.CountsRight ↔ ¬ st.Visible q := by
  have count : (insertIntoDelta session q st).2.tripleCount q.p = st.tripleCount q.p + 1 := by
    simp only [Store.insertIntoDelta]
    rw [tripleCount_addTripleCount]
    · rfl
    · exact ((layout.dedicatedAt hp).setDelta _).of_eq rfl rfl (Sequence.lastValue_le_nextval _ _)
  have shown : (insertIntoDelta session q st).2.visibleKeys q.p =
      insert q.key (st.visibleKeys q.p) := by
    ext k
    rw [mem_visibleKeys, visible_insertIntoDelta hp, Finset.mem_insert, mem_visibleKeys, or_comm]
    exact or_congr ⟨fun same => congrArg Quad.key same, fun same => Quad.ext_key rfl same⟩ Iff.rfl
  have present : q.key ∈ st.visibleKeys q.p ↔ st.Visible q := by
    rw [mem_visibleKeys, Quad.key_quad]
  rw [h.of_onlyAt_iff onlyAt_insertIntoDelta fun _ _ => Iff.rfl, counted_iff, count, shown,
    Finset.card_insert_eq_ite, h.tripleCount, ← present]
  split
  · rename_i old
    exact iff_of_false (by omega) (not_not.mpr old)
  · rename_i new
    exact iff_of_true (by omega) new

/-- Into `vp_rare`: only new rows are counted. -/
theorem CountsRight.insertIntoVpRare (h : st.CountsRight) (layout : st.Layout)
    (seq : st.seq.Positive) (hp : st.isDedicated q.p = false) :
    (Store.insertIntoVpRare session q st).2.CountsRight := by
  have drawn : (st.seq.nextval session).1 ≠ 0 := (seq.nextval session).1.ne'
  have visible : st.Visible q ↔ st.rare.HasKey q := by
    rw [Visible, hp]
    simp
  have count : (Store.insertIntoVpRare session q st).2.tripleCount q.p =
      st.tripleCount q.p + if st.rare.HasKey q then 0 else 1 := by
    have sid : (insertRareRow session q st).1 =
        if st.rare.HasKey q then 0 else (st.seq.nextval session).1 := rfl
    rw [Store.insertIntoVpRare]
    dsimp only
    by_cases old : st.rare.HasKey q
    · rw [if_pos old] at sid ⊢
      rw [if_pos sid, Int.add_zero]
      rfl
    · rw [if_neg old] at sid ⊢
      rw [if_neg (sid ▸ drawn), tripleCount_upsertRarePredicate]
      rfl
  have shown : (Store.insertIntoVpRare session q st).2.visibleKeys q.p =
      insert q.key (st.visibleKeys q.p) := by
    ext k
    rw [mem_visibleKeys, layout.visible_insertIntoVpRare hp, Finset.mem_insert,
      mem_visibleKeys, or_comm]
    exact or_congr ⟨fun same => congrArg Quad.key same, fun same => Quad.ext_key rfl same⟩ Iff.rfl
  have present : q.key ∈ st.visibleKeys q.p ↔ st.rare.HasKey q := by
    rw [mem_visibleKeys, Quad.key_quad, visible]
  apply (h.of_onlyAt_iff onlyAt_insertIntoVpRare ?_).mpr
  · rw [counted_iff, count, shown, Finset.card_insert_eq_ite, h.tripleCount]
    simp only [present]
    split <;> omega
  · intro q' other
    rw [rare_insertIntoVpRare]
    exact or_iff_left fun same => other (congrArg Quad.p same)

/-- A list adds its length to a set exactly if it brings only new members, each once. -/
theorem card_union_toFinset {s : Finset Key} :
    (s ∪ keys.toFinset).card = s.card + keys.length ↔ keys.Nodup ∧ ∀ k ∈ keys, k ∉ s := by
  have inclusion := Finset.card_union_add_card_inter s keys.toFinset
  have distinct := keys.toFinset_card_le
  constructor
  · intro grown
    have full : keys.toFinset.card = keys.length := by omega
    have apart : (s ∩ keys.toFinset).card = 0 := by omega
    refine ⟨?_, ?_⟩
    · exact Multiset.toFinset_card_eq_card_iff_nodup.mp full
    · intro k hk old
      have both : k ∈ s ∩ keys.toFinset := Finset.mem_inter.mpr ⟨old, List.mem_toFinset.mpr hk⟩
      rw [Finset.card_eq_zero.mp apart] at both
      cases both
  · rintro ⟨nodup, fresh⟩
    have full := List.toFinset_card_of_nodup nodup
    have apart : (s ∩ keys.toFinset).card = 0 := by
      apply Finset.card_eq_zero.mpr
      apply Finset.eq_empty_of_forall_notMem
      intro k both
      obtain ⟨old, new⟩ := Finset.mem_inter.mp both
      exact fresh k (List.mem_toFinset.mp new) old
    omega

/-- A batch is counted by its length, in both layouts. -/
theorem CountsRight.batchInsertEncoded_iff (h : st.CountsRight) (layout : st.Layout) :
    (batchInsertEncoded session p keys st).2.CountsRight ↔
      keys.Nodup ∧ ∀ k ∈ keys, ¬ st.Visible (k.quad p) := by
  have count : (batchInsertEncoded session p keys st).2.tripleCount p =
      st.tripleCount p + keys.length := by
    rw [Store.batchInsertEncoded]
    split
    · rename_i empty
      rw [List.isEmpty_iff.mp empty]
      exact (Int.add_zero _).symm
    · split
      · rename_i hp
        simp only [Store.batchIntoDelta]
        rw [tripleCount_addTripleCount]
        · rfl
        · exact ((layout.dedicatedAt hp).setDelta _).of_eq rfl rfl Sequence.lastValue_le_stamp
      · simp only [Store.batchIntoVpRare]
        rw [tripleCount_upsertRarePredicate]
        rfl
  have shown : (batchInsertEncoded session p keys st).2.visibleKeys p =
      st.visibleKeys p ∪ keys.toFinset := by
    ext k
    rw [mem_visibleKeys, layout.visible_batchInsertEncoded, Finset.mem_union, mem_visibleKeys,
      List.mem_toFinset]
    simp
  have rare (q : Quad) (other : q.p ≠ p) :
      (batchInsertEncoded session p keys st).2.rare.HasKey q ↔ st.rare.HasKey q := by
    rw [Store.batchInsertEncoded]
    split
    · rfl
    · split
      · rfl
      · rw [rare_batchIntoVpRare]
        exact or_iff_left fun added => other added.1
  rw [h.of_onlyAt_iff onlyAt_batchInsertEncoded rare, counted_iff, count, shown, h.tripleCount]
  have cast : ((st.visibleKeys p).card : Int) + keys.length =
      ((st.visibleKeys p ∪ keys.toFinset).card : Int) ↔
      (st.visibleKeys p ∪ keys.toFinset).card = (st.visibleKeys p).card + keys.length := by omega
  rw [cast, card_union_toFinset]
  simp only [mem_visibleKeys]

/-- Before promotion nothing but `vp_rare` counts, and promotion moves all of it. A predicate that
is promoted again is counted by its `delta` alone. -/
theorem CountsRight.promotePredicate_iff (h : st.CountsRight) (layout : st.Layout) :
    (st.promotePredicate p).CountsRight ↔ (st.isDedicated p = true →
      ∀ k, (st.tables p).MainVisible k → (st.tables p).InDelta k) := by
  have shown : (st.promotePredicate p).visibleKeys p = st.visibleKeys p := by
    ext k
    rw [mem_visibleKeys, mem_visibleKeys, layout.visible_promotePredicate]
  have rare (q : Quad) (other : q.p ≠ p) :
      (st.promotePredicate p).rare.HasKey q ↔ st.rare.HasKey q := by
    rw [rare_promotePredicate]
    exact and_iff_left other
  rw [h.of_onlyAt_iff onlyAt_promotePredicate rare, counted_iff, shown,
    tripleCount_promotePredicate (layout.predicate p)]
  cases layout.predicate p with
  | inl used =>
    have none : st.rareRowsOf p = [] := by
      rw [rareRowsOf, List.map_eq_nil_iff, List.filter_eq_nil_iff]
      intro r hr same
      have stays := layout.rare r.quad (UniqueTable.HasKey.of_mem hr)
      rw [of_decide_eq_true same, used.dedicated] at stays
      cases stays
    have listed : (((st.tables p).delta.rows.map Row.key).toFinset).card =
        (st.tables p).delta.rows.length := by
      rw [List.toFinset_card_of_nodup (st.tables p).delta.unique, List.length_map]
    have inside : ((st.tables p).delta.rows.map Row.key).toFinset ⊆ st.visibleKeys p := by
      intro k hk
      have dedicated : st.isDedicated (k.quad p).p = true := used.dedicated
      rw [mem_visibleKeys, layout.visible_iff_shows dedicated]
      exact HtapTables.shows_iff.mpr (.inr (List.mem_toFinset.mp hk))
    have whole : (st.tables p).delta.rows.length = (st.visibleKeys p).card ↔
        ∀ k, (st.tables p).MainVisible k → (st.tables p).InDelta k := by
      constructor
      · intro same k main
        have dedicated : st.isDedicated (k.quad p).p = true := used.dedicated
        have visible : k ∈ st.visibleKeys p := by
          rw [mem_visibleKeys, layout.visible_iff_shows dedicated]
          exact HtapTables.shows_iff.mpr (.inl main)
        rw [← Finset.eq_of_subset_of_card_le inside (by omega)] at visible
        exact List.mem_toFinset.mp visible
      · intro covered
        have equal : ((st.tables p).delta.rows.map Row.key).toFinset = st.visibleKeys p := by
          apply inside.antisymm
          intro k visible
          have dedicated : st.isDedicated (k.quad p).p = true := used.dedicated
          rw [mem_visibleKeys, layout.visible_iff_shows dedicated] at visible
          exact List.mem_toFinset.mpr ((HtapTables.shows_iff.mp visible).elim (covered k) id)
        rw [← listed, equal]
    rw [none, used.dedicated, ← whole]
    simp [UniqueTable.insertAll]
  | inr unused =>
    rw [unused.dedicated]
    refine iff_of_true ?_ (by simp)
    have members : ∀ k, k ∈ st.visibleKeys p ↔ k ∈
        (((st.tables p).delta.insertAll (st.rareRowsOf p)).rows.map Row.key).toFinset := by
      intro k
      rw [mem_visibleKeys, Visible, Key.quad_p, unused.dedicated, List.mem_toFinset,
        ← mem_map_key_rareRowsOf]
      have moved : ((st.tables p).delta.insertAll (st.rareRowsOf p)).HasKey k ↔
          (st.tables p).delta.HasKey k ∨ k ∈ (st.rareRowsOf p).map Row.key :=
        UniqueTable.hasKey_insertAll
      rw [unused.tables] at moved ⊢
      simp only [Bool.false_eq_true, false_and, false_or]
      refine Iff.trans ?_ moved.symm
      exact (or_iff_right (HtapTables.not_inDelta_fresh k)).symm
    rw [Finset.ext members, List.toFinset_card_of_nodup (UniqueTable.unique _), List.length_map]

/-- A row of `delta` does not reveal a copy in `main`; a row of `main` is alone, and a hidden row of
`main` is not counted again. The two exceptions are counters that reach `0` anyway. -/
def DeletesCounted (st : Store) (q : Quad) : Prop :=
  if (st.tables q.p).InDelta q.key then ¬ (st.tables q.p).MainVisible q.key
  else if (st.tables q.p).MainVisible q.key then
    (st.tables q.p).mainCopies q.key ≤ 1 ∨ st.visibleKeys q.p = {q.key}
  else ¬ (st.tables q.p).InMain q.key ∨ st.visibleKeys q.p = ∅

theorem length_filter_rare :
    (st.rare.rows.filter fun r => r.quad = q).length = if st.rare.HasKey q then 1 else 0 :=
  UniqueTable.length_filter_key st.rare q

theorem tripleCount_deleteFromVpRare (nonneg : 0 ≤ st.tripleCount q.p) :
    (deleteFromVpRare q st).2.tripleCount q.p =
      st.tripleCount q.p - min (if st.rare.HasKey q then 1 else 0) (st.tripleCount q.p) := by
  simp only [deleteFromVpRare, length_filter_rare]
  rw [tripleCount_subtractTripleCount]
  · split <;> rfl
  · exact nonneg

theorem tripleCount_deleteFromDedicated (nonneg : 0 ≤ st.tripleCount q.p) :
    (deleteFromDedicated session q st).2.tripleCount q.p =
      st.tripleCount q.p - min (if (st.tables q.p).InDelta q.key then 1
        else ((st.tables q.p).mainCopies q.key : Int)) (st.tripleCount q.p) := by
  have removed : ((st.tables q.p).delta.rows.filter fun r => r.key = q.key).length =
      if (st.tables q.p).InDelta q.key then 1 else 0 :=
    UniqueTable.length_filter_key (st.tables q.p).delta q.key
  simp only [deleteFromDedicated, removed]
  by_cases present : (st.tables q.p).InDelta q.key
  · simp only [if_pos present, Nat.lt_one_iff, if_true]
    rw [tripleCount_subtractTripleCount]
    · rfl
    · exact nonneg
  · simp only [if_neg present, Nat.lt_irrefl, if_false]
    have kept : ((st.insertTombstones session q.p [q.key]).addTombstoneCount q.p 1).tripleCount
        q.p = st.tripleCount q.p := tripleCount_addTombstoneCount
    rw [tripleCount_subtractTripleCount, kept]
    · rfl
    · rw [kept]
      exact nonneg

theorem CountsRight.deleteQuad_iff (h : st.CountsRight) (inv : st.Inv) :
    (deleteQuad session q st).2.CountsRight ↔
      (st.isDedicated q.p = true → st.DeletesCounted q) := by
  have rare (q' : Quad) (other : q'.p ≠ q.p) :
      (deleteQuad session q st).2.rare.HasKey q' ↔ st.rare.HasKey q' := by
    rw [rare_deleteQuad]
    exact and_iff_left fun same => other (congrArg Quad.p same)
  have nonneg := (h q.p).nonneg
  have present : q.key ∈ st.visibleKeys q.p ↔ st.Visible q := by
    rw [mem_visibleKeys, Quad.key_quad]
  rw [h.of_onlyAt_iff onlyAt_deleteQuad rare, counted_iff]
  cases hp : st.isDedicated q.p with
  | true =>
    have absent : ¬ st.rare.HasKey q := by
      intro old
      have stays := inv.rare q old
      rw [hp] at stays
      cases stays
    have count : (deleteQuad session q st).2.tripleCount q.p =
        (deleteFromDedicated session q st).2.tripleCount q.p := by
      rw [Store.deleteQuad, if_pos hp]
      dsimp only
      have lower : 0 ≤ (deleteFromDedicated session q st).2.tripleCount q.p := by
        rw [tripleCount_deleteFromDedicated nonneg]
        omega
      rw [tripleCount_deleteFromVpRare lower, rare_deleteFromDedicated, if_neg absent]
      omega
    rw [count, tripleCount_deleteFromDedicated nonneg, h.tripleCount, DeletesCounted]
    simp only [forall_const]
    by_cases inDelta : (st.tables q.p).InDelta q.key
    · rw [if_pos inDelta, if_pos inDelta]
      have shown (k : Key) : k ∈ (deleteQuad session q st).2.visibleKeys q.p ↔
          (st.tables q.p).MainVisible k ∨ ((st.tables q.p).InDelta k ∧ k ≠ q.key) := by
        have same : (k.quad q.p).p = q.p := rfl
        rw [mem_visibleKeys, inv.visible_deleteQuad_of_inDelta hp inDelta same,
          HtapTables.mainVisible_iff_of_clean (inv.clean q.p)]
        exact or_congr Iff.rfl (and_congr Iff.rfl
          (not_congr ⟨congrArg Quad.key, fun same => Quad.ext_key rfl same⟩))
      have before (k : Key) : k ∈ st.visibleKeys q.p ↔
          (st.tables q.p).MainVisible k ∨ (st.tables q.p).InDelta k := by
        have used : st.isDedicated (k.quad q.p).p = true := hp
        rw [mem_visibleKeys, inv.toLayout.visible_iff_shows used]
        exact HtapTables.shows_iff
      have mine := (before q.key).mpr (.inr inDelta)
      have some_ := Finset.card_pos.mpr ⟨_, mine⟩
      by_cases inMain : (st.tables q.p).MainVisible q.key
      · have same : (deleteQuad session q st).2.visibleKeys q.p = st.visibleKeys q.p := by
          ext k
          rw [shown, before]
          refine or_congr_right' ?_
          intro hidden
          refine and_iff_left ?_
          rintro rfl
          exact hidden inMain
        rw [same]
        exact iff_of_false (by omega) (not_not.mpr inMain)
      · have less : (deleteQuad session q st).2.visibleKeys q.p =
            (st.visibleKeys q.p).erase q.key := by
          ext k
          rw [shown, Finset.mem_erase, before, and_or_left, and_comm (a := k ≠ q.key)]
          refine or_congr ?_ and_comm
          refine (and_iff_left_of_imp ?_).symm
          rintro main rfl
          exact inMain main
        rw [less, Finset.card_erase_of_mem mine]
        exact iff_of_true (by omega) inMain
    · rw [if_neg inDelta, if_neg inDelta]
      have less : (deleteQuad session q st).2.visibleKeys q.p =
          (st.visibleKeys q.p).erase q.key := by
        ext k
        have same : (k.quad q.p).p = q.p := rfl
        rw [mem_visibleKeys, inv.visible_deleteQuad_of_not_inDelta hp inDelta same,
          Finset.mem_erase, mem_visibleKeys, inv.visible_iff hp same]
        have named : k.quad q.p ≠ q ↔ k ≠ q.key :=
          not_congr ⟨congrArg Quad.key, fun same => Quad.ext_key rfl same⟩
        rw [named, and_or_left, ← and_assoc, and_comm (a := k ≠ q.key)]
        refine or_congr Iff.rfl (and_iff_right_of_imp ?_).symm
        rintro delta rfl
        exact inDelta delta
      rw [less]
      have shown : st.Visible q ↔ (st.tables q.p).MainVisible q.key := by
        rw [inv.toLayout.visible_iff_shows hp, HtapTables.shows_iff]
        exact or_iff_left inDelta
      have copies := HtapTables.mainCopies_pos_iff (t := st.tables q.p) (k := q.key)
      by_cases main : (st.tables q.p).MainVisible q.key
      · have mine := present.mpr (shown.mpr main)
        have some_ := Finset.card_pos.mpr ⟨_, mine⟩
        have last : st.visibleKeys q.p = {q.key} ↔ (st.visibleKeys q.p).card = 1 := by
          constructor
          · intro only
            rw [only, Finset.card_singleton]
          · intro one
            obtain ⟨k, only⟩ := Finset.card_eq_one.mp one
            rw [only, Finset.mem_singleton] at mine
            rw [only, mine]
        have there := copies.mpr main.1
        rw [Finset.card_erase_of_mem mine, if_pos main, last]
        omega
      · rw [Finset.erase_eq_of_notMem (mt present.mp (mt shown.mp main)), if_neg main, ← copies,
          ← Finset.card_eq_zero]
        omega
  | false =>
    refine iff_of_true ?_ (by simp)
    have count : (deleteQuad session q st).2.tripleCount q.p =
        st.tripleCount q.p - min (if st.rare.HasKey q then 1 else 0) (st.tripleCount q.p) := by
      rw [Store.deleteQuad, if_neg (by simp [hp])]
      exact tripleCount_deleteFromVpRare nonneg
    have visible : st.Visible q ↔ st.rare.HasKey q := by
      rw [Visible, hp]
      simp
    have less : (deleteQuad session q st).2.visibleKeys q.p =
        (st.visibleKeys q.p).erase q.key := by
      ext k
      have after : (deleteQuad session q st).2.isDedicated q.p = false :=
        (inv.toLayout.unusedAt hp).deleteQuad.dedicated
      rw [mem_visibleKeys, Visible, Key.quad_p, after, rare_deleteQuad, Finset.mem_erase,
        mem_visibleKeys, Visible, Key.quad_p, hp]
      simp only [Bool.false_eq_true, false_and, false_or]
      rw [and_comm]
      exact and_congr (not_congr ⟨congrArg Quad.key, fun same => Quad.ext_key rfl same⟩) Iff.rfl
    rw [count, less, h.tripleCount]
    by_cases old : st.rare.HasKey q
    · have mine := present.mpr (visible.mpr old)
      have some_ := Finset.card_pos.mpr ⟨_, mine⟩
      rw [if_pos old, Finset.card_erase_of_mem mine]
      omega
    · rw [if_neg old, Finset.erase_eq_of_notMem (mt present.mp (mt visible.mp old))]
      omega

/-- Every row of the new main table is counted. -/
theorem CountsRight.mergePredicate_iff {cfg : Config} (h : st.CountsRight) (inv : st.Inv) :
    (mergePredicate cfg p st).2.CountsRight ↔
      (st.isDedicated p = true → cfg.dedupOnMerge = true ∨
        (((st.tables p).mainMinusTombstones ++ (st.tables p).delta.rows).map Row.key).Nodup) := by
  cases inv.predicate p with
  | inr unused =>
    rw [unused.mergePredicate_eq, unused.dedicated]
    exact iff_of_true h (by simp)
  | inl used =>
    have hp := used.dedicated
    have after : (mergePredicate cfg p st).2.isDedicated p = true := used.mergePredicate.dedicated
    have shown : (mergePredicate cfg p st).2.visibleKeys p = st.visibleKeys p := by
      ext k
      rw [mem_visibleKeys, mem_visibleKeys, Visible, Visible, Key.quad_p, after, hp,
        rare_mergePredicate, used.tables_mergePredicate,
        HtapTables.shows_merged (inv.clean p)]
    have members : st.visibleKeys p = (((st.tables p).buildMain cfg).map Row.key).toFinset := by
      ext k
      have dedicated : st.isDedicated (k.quad p).p = true := hp
      rw [mem_visibleKeys, inv.toLayout.visible_iff_shows dedicated, List.mem_toFinset,
        HtapTables.mem_map_buildMain]
      exact HtapTables.shows_iff_of_clean (inv.clean p)
    have distinct : (((st.tables p).buildMain cfg).map Row.key).Nodup ↔
        cfg.dedupOnMerge = true ∨
          (((st.tables p).mainMinusTombstones ++ (st.tables p).delta.rows).map Row.key).Nodup := by
      rw [HtapTables.buildMain]
      split
      · rename_i dedup
        exact iff_of_true (DistinctOn.nodup_map_key_distinctOn _) (.inl dedup)
      · rename_i keep
        exact (or_iff_right keep).symm
    have exact_ : (((st.tables p).buildMain cfg).map Row.key).toFinset.card =
        (((st.tables p).buildMain cfg).map Row.key).length ↔
        (((st.tables p).buildMain cfg).map Row.key).Nodup :=
      Multiset.toFinset_card_eq_card_iff_nodup
    rw [h.of_onlyAt_iff onlyAt_mergePredicate fun _ _ => by rw [rare_mergePredicate],
      counted_iff, shown, tripleCount_mergePredicate used, members, Int.natCast_inj, hp,
      ← distinct, ← exact_, List.length_map]
    simp only [forall_const]
    exact eq_comm

/-- The keys of a graph's rows in `delta` and `main`, one for each row. -/
def graphRowKeys (t : HtapTables) (g : TermId) : List Key :=
  (t.delta.rows.filter fun r => r.key.g = g).map Row.key ++
    (t.main.filter fun r => r.key.g = g).map Row.key

/-- The number of rows that a graph operation takes from the counter. -/
def graphRows (t : HtapTables) (g : TermId) : Nat := (graphRowKeys t g).length

/-- No row of the graph is in `vp_rare`. In the tables of a dedicated predicate each row of the
graph is a visible quad of its own, unless the counter reaches `0` because the predicate has no
visible quad outside the graph. -/
def GraphCounted (st : Store) (g : TermId) : Prop :=
  (∀ q, st.rare.HasKey q → q.g ≠ g) ∧ ∀ p, st.isDedicated p = true →
    (∀ k ∈ st.visibleKeys p, k.g = g) ∨
      ((graphRowKeys (st.tables p) g).Nodup ∧
        ∀ k, (st.tables p).InMain k → k.g = g → (st.tables p).Shows k)

@[simp] theorem mem_graphRowKeys {t : HtapTables} :
    k ∈ graphRowKeys t g ↔ (t.InDelta k ∨ t.InMain k) ∧ k.g = g := by
  rw [graphRowKeys, List.mem_append, HtapTables.InDelta, UniqueTable.HasKey, HtapTables.InMain]
  simp only [List.mem_map, List.mem_filter, decide_eq_true_eq]
  constructor
  · rintro (⟨r, ⟨hr, hg⟩, rfl⟩ | ⟨r, ⟨hr, hg⟩, rfl⟩)
    · exact ⟨.inl ⟨r, hr, rfl⟩, hg⟩
    · exact ⟨.inr ⟨r, hr, rfl⟩, hg⟩
  · rintro ⟨⟨r, hr, rfl⟩ | ⟨r, hr, rfl⟩, hg⟩
    · exact .inl ⟨r, ⟨hr, hg⟩, rfl⟩
    · exact .inr ⟨r, ⟨hr, hg⟩, rfl⟩

/-- The rows of a graph are as many as its visible quads, up to the size of the counter. -/
theorem Layout.min_graphRows_iff (layout : st.Layout) (hp : st.isDedicated p = true) :
    min (graphRows (st.tables p) g) (st.visibleKeys p).card =
        ((st.visibleKeys p).filter fun k => k.g = g).card ↔
      (∀ k ∈ st.visibleKeys p, k.g = g) ∨
        ((graphRowKeys (st.tables p) g).Nodup ∧
          ∀ k, (st.tables p).InMain k → k.g = g → (st.tables p).Shows k) := by
  have shown (k : Key) : k ∈ st.visibleKeys p ↔ (st.tables p).Shows k := by
    have used : st.isDedicated (k.quad p).p = true := hp
    rw [mem_visibleKeys, layout.visible_iff_shows used, Key.quad_key, Key.quad_p]
  have inside : ((st.visibleKeys p).filter fun k => k.g = g) ⊆
      (graphRowKeys (st.tables p) g).toFinset := by
    intro k hk
    obtain ⟨visible, hg⟩ := Finset.mem_filter.mp hk
    refine List.mem_toFinset.mpr (mem_graphRowKeys.mpr ⟨?_, hg⟩)
    exact (HtapTables.shows_iff.mp ((shown k).mp visible)).symm.imp_right fun main => main.1
  have fewer := Finset.card_le_card inside
  have rows := List.toFinset_card_le (l := graphRowKeys (st.tables p) g)
  have all := Finset.card_filter_eq_iff (s := st.visibleKeys p) (p := fun k => k.g = g)
  have size := Finset.card_filter_le (st.visibleKeys p) fun k => k.g = g
  have distinct : (graphRowKeys (st.tables p) g).toFinset.card =
      (graphRowKeys (st.tables p) g).length ↔ (graphRowKeys (st.tables p) g).Nodup :=
    Multiset.toFinset_card_eq_card_iff_nodup
  have visible : (graphRowKeys (st.tables p) g).toFinset.card =
      ((st.visibleKeys p).filter fun k => k.g = g).card ↔
        ∀ k, (st.tables p).InMain k → k.g = g → (st.tables p).Shows k := by
    constructor
    · intro same k main hg
      have member : k ∈ (graphRowKeys (st.tables p) g).toFinset :=
        List.mem_toFinset.mpr (mem_graphRowKeys.mpr ⟨.inr main, hg⟩)
      rw [← Finset.eq_of_subset_of_card_le inside same.le] at member
      exact (shown k).mp (Finset.mem_filter.mp member).1
    · intro shows
      refine congrArg Finset.card (Finset.Subset.antisymm ?_ inside)
      intro k member
      obtain ⟨stored, hg⟩ := mem_graphRowKeys.mp (List.mem_toFinset.mp member)
      refine Finset.mem_filter.mpr ⟨(shown k).mpr ?_, hg⟩
      exact stored.elim (fun delta => HtapTables.shows_iff.mpr (.inr delta))
        fun main => shows k main hg
  rw [← all, ← distinct, ← visible, graphRows]
  omega

theorem tripleCount_removeGraphRows (nonneg : 0 ≤ st.tripleCount p) :
    (removeGraphRows session g p st).2.2.tripleCount p =
      st.tripleCount p - min (graphRows (st.tables p) g : Int) (st.tripleCount p) := by
  have sum : (((st.tables p).delta.rows.filter fun r => r.key.g = g).length : Int) +
      ((((st.tables p).main.filter fun r => r.key.g = g).map Row.key).length : Int) =
      (graphRows (st.tables p) g : Nat) := by
    rw [graphRows, graphRowKeys, List.length_append, List.length_map, List.length_map,
      Int.natCast_add]
  simp only [removeGraphRows]
  rw [sum, tripleCount_subtractTripleCount]
  · rfl
  · exact nonneg

/-- The counter of a dedicated predicate after either loop. -/
theorem Layout.tripleCount_fold (h : st.Layout) (session : Session)
    (step : Int × Store → TermId → Int × Store) (only : ∀ acc p, OnlyAt p acc.2 (step acc p).2)
    (keeps : ∀ acc p, st.isDedicated p = true → SameLayout st acc.2 →
      SameLayout st (step acc p).2)
    (count : ∀ acc p, (step acc p).2.tripleCount p =
      (removeGraphRows session g p acc.2).2.2.tripleCount p)
    (nonneg : 0 ≤ st.tripleCount p) :
    (st.dedicatedPredicates.foldl step (0, st)).2.tripleCount p = st.tripleCount p -
      if st.isDedicated p = true then min (graphRows (st.tables p) g : Int) (st.tripleCount p)
      else 0 := by
  by_cases hp : st.isDedicated p = true
  · obtain ⟨mid, -, before, after⟩ := h.exists_round step only keeps hp
    have same : mid.2.tripleCount p = st.tripleCount p := by
      rw [tripleCount, before.catalog, tripleCount]
    have final : (st.dedicatedPredicates.foldl step (0, st)).2.tripleCount p =
        (step mid p).2.tripleCount p := by
      rw [tripleCount, after.catalog, tripleCount]
    rw [if_pos hp, final, count, tripleCount_removeGraphRows, same, before.tables]
    rw [same]
    exact nonneg
  · have absent : p ∉ st.dedicatedPredicates := mt mem_dedicatedPredicates.mp hp
    have final := fold_agreeAt only st.dedicatedPredicates (0, st) absent
    rw [if_neg hp, tripleCount, final.catalog, tripleCount, Int.sub_zero]

theorem Layout.tripleCount_clearGraphById (h : st.Layout) (nonneg : 0 ≤ st.tripleCount p) :
    (Store.clearGraphById session g st).2.tripleCount p = st.tripleCount p -
      if st.isDedicated p = true then min (graphRows (st.tables p) g : Int) (st.tripleCount p)
      else 0 := by
  refine h.tripleCount_fold session (Store.clearGraphIn session g) (fun _ _ => onlyAt_clearGraphIn)
    (fun _ _ hx kept => kept.clearGraphIn hx) ?_ nonneg
  intro acc p
  simp only [Store.clearGraphIn]
  split
  · exact tripleCount_addTombstoneCount
  · rfl

theorem Layout.tripleCount_dropGraph (h : st.Layout) (nonneg : 0 ≤ st.tripleCount p) :
    (Store.dropGraph session g st).2.tripleCount p = st.tripleCount p -
      if st.isDedicated p = true then min (graphRows (st.tables p) g : Int) (st.tripleCount p)
      else 0 :=
  h.tripleCount_fold session (Store.dropGraphIn session g) (fun _ _ => onlyAt_dropGraphIn)
    (fun _ _ hx kept => kept.dropGraphIn hx) (fun _ _ => rfl) nonneg

/-- What the counters and the quads are after a graph operation. -/
structure GraphCleared (g : TermId) (st st' : Store) : Prop where
  count : ∀ p, 0 ≤ st.tripleCount p → st'.tripleCount p = st.tripleCount p -
    if st.isDedicated p = true then min (graphRows (st.tables p) g : Int) (st.tripleCount p) else 0
  visible : ∀ q : Quad, st'.Visible q ↔
    (st.isDedicated q.p = true ∧ (st'.tables q.p).Shows q.key) ∨ (st.rare.HasKey q ∧ q.g ≠ g)

theorem Layout.graphCleared_clearGraphById (session : Session) (g : TermId) (h : st.Layout) :
    GraphCleared g st (Store.clearGraphById session g st).2 :=
  ⟨fun _ => h.tripleCount_clearGraphById, h.visible_clearGraphById⟩

theorem Layout.graphCleared_dropGraph (session : Session) (g : TermId) (h : st.Layout) :
    GraphCleared g st (Store.dropGraph session g st).2 :=
  ⟨fun _ => h.tripleCount_dropGraph, h.visible_dropGraph⟩

/-- A predicate in `vp_rare` keeps its counter. -/
theorem GraphCleared.counted_iff_of_rare (cleared : GraphCleared g st st') (h : st.CountsRight)
    (hp : st.isDedicated p = false) :
    st'.Counted p ↔ ∀ k : Key, st.rare.HasKey (k.quad p) → k.g ≠ g := by
  have shown : st'.visibleKeys p = (st.visibleKeys p).filter fun k => ¬ k.g = g := by
    ext k
    rw [mem_visibleKeys, cleared.visible, Finset.mem_filter, mem_visibleKeys, Visible,
      Key.quad_p, hp]
    simp only [Bool.false_eq_true, false_and, false_or]
    exact Iff.rfl
  have parts := Finset.card_filter_add_card_filter_not (s := st.visibleKeys p) fun k => k.g = g
  have count := cleared.count p (h p).nonneg
  rw [hp, if_neg (by simp), Int.sub_zero, h.tripleCount] at count
  rw [counted_iff, count, shown]
  have none : ((st.visibleKeys p).filter fun k => k.g = g).card = 0 ↔
      ∀ k : Key, st.rare.HasKey (k.quad p) → k.g ≠ g := by
    rw [Finset.card_eq_zero, Finset.filter_eq_empty_iff]
    refine forall_congr' fun k => ?_
    rw [mem_visibleKeys, Visible, Key.quad_p, hp]
    simp
  rw [← none]
  omega

/-- A dedicated predicate whose tables were emptied of the graph. -/
theorem GraphCleared.counted_iff_of_emptied (cleared : GraphCleared g st st') (h : st.CountsRight)
    (layout : st.Layout) (hp : st.isDedicated p = true)
    (emptied : TablesEmptied g (st.tables p) (st'.tables p)) :
    st'.Counted p ↔ (∀ k ∈ st.visibleKeys p, k.g = g) ∨
      ((graphRowKeys (st.tables p) g).Nodup ∧
        ∀ k, (st.tables p).InMain k → k.g = g → (st.tables p).Shows k) := by
  have shown : st'.visibleKeys p = (st.visibleKeys p).filter fun k => ¬ k.g = g := by
    ext k
    have used : st.isDedicated (k.quad p).p = true := hp
    have absent : ¬ st.rare.HasKey (k.quad p) := by
      intro old
      have stays := layout.rare _ old
      rw [used] at stays
      cases stays
    rw [mem_visibleKeys, cleared.visible, Finset.mem_filter, mem_visibleKeys,
      layout.visible_iff_shows used]
    simp only [absent, false_and, or_false, Key.quad_p, Key.quad_key, hp, true_and]
    by_cases hg : k.g = g
    · exact iff_of_false (emptied.gone k hg) fun both => both.2 hg
    · exact (emptied.others k hg).trans (and_iff_left hg).symm
  have parts := Finset.card_filter_add_card_filter_not (s := st.visibleKeys p) fun k => k.g = g
  have count := cleared.count p (h p).nonneg
  rw [if_pos hp, h.tripleCount] at count
  rw [counted_iff, count, shown, ← layout.min_graphRows_iff hp]
  omega

/-- The skip form still shows rows of the graph that were subtracted. -/
theorem GraphCleared.not_counted (cleared : GraphCleared g st st') (h : st.CountsRight)
    (layout : st.Layout) (hp : st.isDedicated p = true)
    (removed : GraphRemoved g (st.tables p) (st'.tables p))
    (skip : (st'.tables p).view = .tombstoneSkip) (inMain : (st.tables p).InMain k)
    (hg : k.g = g) : ¬ st'.Counted p := by
  have shows (k : Key) : k ∈ st'.visibleKeys p ↔
      (st.tables p).InMain k ∨ ((st.tables p).InDelta k ∧ k.g ≠ g) := by
    have used : st.isDedicated (k.quad p).p = true := hp
    have absent : ¬ st.rare.HasKey (k.quad p) := by
      intro old
      have stays := layout.rare _ old
      rw [used] at stays
      cases stays
    rw [mem_visibleKeys, cleared.visible]
    simp only [absent, false_and, or_false, Key.quad_p, Key.quad_key, hp, true_and]
    rw [removed.shows_iff, skip]
    simp
  -- only rows of `delta` have disappeared
  have bound : (st.visibleKeys p).card ≤ (st'.visibleKeys p).card +
      ((st.tables p).delta.rows.filter fun r => r.key.g = g).length := by
    have cover : st.visibleKeys p ⊆ st'.visibleKeys p ∪
        (((st.tables p).delta.rows.filter fun r => r.key.g = g).map Row.key).toFinset := by
      intro k' hk
      have used : st.isDedicated (k'.quad p).p = true := hp
      rw [mem_visibleKeys, layout.visible_iff_shows used] at hk
      rw [Finset.mem_union, shows, List.mem_toFinset]
      cases HtapTables.shows_iff.mp hk with
      | inl main => exact .inl (.inl main.1)
      | inr delta =>
        by_cases same : k'.g = g
        · obtain ⟨r, hr, named⟩ := UniqueTable.hasKey_iff.mp delta
          refine .inr (List.mem_map.mpr ⟨r, List.mem_filter.mpr ⟨hr, ?_⟩, named⟩)
          rw [named]
          exact decide_eq_true same
        · exact .inl (.inr ⟨delta, same⟩)
    have sizes := (Finset.card_le_card cover).trans (Finset.card_union_le _ _)
    have listed := List.toFinset_card_le
      (l := ((st.tables p).delta.rows.filter fun r => r.key.g = g).map Row.key)
    rw [List.length_map] at listed
    omega
  have still : 0 < (st'.visibleKeys p).card := Finset.card_pos.mpr ⟨k, (shows k).mpr (.inl inMain)⟩
  have copies : 0 < ((st.tables p).main.filter fun r => r.key.g = g).length := by
    obtain ⟨r, hr, named⟩ := List.mem_map.mp inMain
    apply List.length_pos_of_mem
    exact List.mem_filter.mpr ⟨hr, decide_eq_true (named ▸ hg)⟩
  have count := cleared.count p (h p).nonneg
  rw [if_pos hp, h.tripleCount, graphRows, graphRowKeys, List.length_append, List.length_map,
    List.length_map] at count
  rw [counted_iff, count]
  omega

/-- With an empty tombstone table behind every skip form, `clear_graph_by_id` removes the quads of
the graph. -/
theorem Inv.tablesEmptied_clearGraphById (h : st.Inv) (hp : st.isDedicated p = true) :
    TablesEmptied g (st.tables p) ((Store.clearGraphById session g st).2.tables p) := by
  obtain ⟨removed, view⟩ := h.toLayout.clearGraphById_effect session g hp
  by_cases none : graphKeys (st.tables p) g = []
  · rw [if_pos none] at view
    apply (removed.tablesEmptied_iff_of_view view).mpr
    intro _ k inMain hg
    have member := mem_graphKeys.mpr ⟨inMain, hg⟩
    rw [none] at member
    cases member
  · rw [if_neg none] at view
    apply (removed.tablesEmptied_iff_of_aware view).mpr
    intro skip k _ _ tombstone
    exact absurd tombstone (HtapTables.tombstones_eq_nil_iff.mp (h.clean p skip) k)

/-- Where the tables are emptied of the graph, the counters stay right if they did count it. -/
theorem GraphCleared.countsRight_iff (cleared : GraphCleared g st st') (h : st.CountsRight)
    (inv : st.Inv)
    (emptied : ∀ p, st.isDedicated p = true → TablesEmptied g (st.tables p) (st'.tables p)) :
    st'.CountsRight ↔ st.GraphCounted g := by
  constructor
  · intro right
    refine ⟨?_, ?_⟩
    · intro q old
      have stays := inv.rare q old
      exact (cleared.counted_iff_of_rare h stays).mp (right q.p) q.key old
    · intro p hp
      exact (cleared.counted_iff_of_emptied h inv.toLayout hp (emptied p hp)).mp (right p)
  · rintro ⟨rare, dedicated⟩ p
    cases hp : st.isDedicated p with
    | true =>
      exact (cleared.counted_iff_of_emptied h inv.toLayout hp (emptied p hp)).mpr (dedicated p hp)
    | false => exact (cleared.counted_iff_of_rare h hp).mpr fun k old => rare _ old

theorem CountsRight.clearGraphById_iff (h : st.CountsRight) (inv : st.Inv) :
    (Store.clearGraphById session g st).2.CountsRight ↔ st.GraphCounted g :=
  (inv.toLayout.graphCleared_clearGraphById session g).countsRight_iff h inv
    fun _ hp => inv.tablesEmptied_clearGraphById hp

/-- No view reads rows of the graph through the skip form. -/
def NoSkippedRows (st : Store) (g : TermId) : Prop :=
  ∀ p, st.isDedicated p = true → (st.tables p).view = .tombstoneSkip →
    ∀ k, (st.tables p).InMain k → k.g ≠ g

theorem CountsRight.dropGraph_iff (h : st.CountsRight) (inv : st.Inv) :
    (Store.dropGraph session g st).2.CountsRight ↔ st.GraphCounted g ∧ st.NoSkippedRows g := by
  have cleared := inv.toLayout.graphCleared_dropGraph session g
  have emptied_iff (p : TermId) (hp : st.isDedicated p = true) :=
    (inv.toLayout.dropGraph_effect session g hp).1.tablesEmptied_iff_of_view
      (inv.toLayout.dropGraph_effect session g hp).2
  constructor
  · intro right
    have noSkipped : st.NoSkippedRows g := by
      intro p hp skip k inMain hg
      obtain ⟨removed, view⟩ := inv.toLayout.dropGraph_effect session g hp
      exact cleared.not_counted h inv.toLayout hp removed (view.trans skip) inMain hg (right p)
    have emptied p hp := (emptied_iff p hp).mpr (noSkipped p hp)
    exact ⟨(cleared.countsRight_iff h inv emptied).mp right, noSkipped⟩
  · rintro ⟨counted, noSkipped⟩
    have emptied p hp := (emptied_iff p hp).mpr (noSkipped p hp)
    exact (cleared.countsRight_iff h inv emptied).mpr counted

theorem Inv.dropGraph (h : st.Inv) (noSkipped : st.NoSkippedRows g) :
    (Store.dropGraph session g st).2.Inv where
  toLayout := h.toLayout.dropGraph
  clean p := by
    cases h.predicate p with
    | inl used =>
      obtain ⟨removed, view⟩ := h.toLayout.dropGraph_effect session g used.dedicated
      intro skip
      rw [view] at skip
      have clean := HtapTables.tombstones_eq_nil_iff.mp (h.clean p skip)
      refine HtapTables.tombstones_eq_nil_iff.mpr ?_
      intro k
      rw [removed.inTombstones]
      rintro (old | ⟨inMain, hg⟩)
      · exact clean k old
      · exact noSkipped p used.dedicated skip k inMain hg
    | inr unused =>
      have absent : p ∉ st.dedicatedPredicates := by
        rw [mem_dedicatedPredicates, unused.dedicated]
        simp
      have same : (Store.dropGraph session g st).2.tables p = st.tables p :=
        (fold_agreeAt (fun _ _ => onlyAt_dropGraphIn) _ _ absent).tables
      rw [same]
      exact h.clean p

end Store

/-- The operation changes the counter by as much as the number of visible quads. -/
def Op.KeepsCount (st : Store) : Op → Prop
  | .insertTriple _ _ q => st.isDedicated q.p = true → ¬ st.Visible q
  | .insertEncodedTriple _ q => st.isDedicated q.p = true → ¬ st.Visible q
  | .batchInsertEncoded _ p keys => keys.Nodup ∧ ∀ k ∈ keys, ¬ st.Visible (k.quad p)
  | .deleteTriple _ q => st.isDedicated q.p = true → st.DeletesCounted q
  | .deleteTripleByIds _ q => st.isDedicated q.p = true → st.DeletesCounted q
  | .promotePredicate p =>
    st.isDedicated p = true → ∀ k, (st.tables p).MainVisible k → (st.tables p).InDelta k
  | .mergePredicate cfg p =>
    st.isDedicated p = true → cfg.dedupOnMerge = true ∨
      (((st.tables p).mainMinusTombstones ++ (st.tables p).delta.rows).map Row.key).Nodup
  | .clearGraphById _ g => st.GraphCounted g
  | .dropGraph _ g => st.GraphCounted g ∧ st.NoSkippedRows g

namespace Store

variable {st : Store}

/-- `insert_triple` promotes only what was in `vp_rare`. -/
theorem CountsRight.insertTriple_iff {cfg : Config} {session : Session} {q : Quad}
    (h : st.CountsRight) (inv : st.Inv) (seq : st.seq.Positive) :
    (Store.insertTriple cfg session q st).2.CountsRight ↔
      (st.isDedicated q.p = true → ¬ st.Visible q) := by
  rw [Store.insertTriple]
  split
  · rename_i hp
    rw [h.insertIntoDelta_iff inv.toLayout hp]
    simp [hp]
  · rename_i hp
    have unused : st.isDedicated q.p = false := by simpa using hp
    have right : (Store.insertIntoVpRare session q st).2.CountsRight :=
      h.insertIntoVpRare inv.toLayout seq unused
    refine iff_of_true ?_ (fun dedicated => absurd dedicated hp)
    dsimp only
    split
    · apply (right.promotePredicate_iff (inv.toLayout.insertIntoVpRare unused)).mpr
      intro dedicated
      have rare : (Store.insertIntoVpRare session q st).2.UnusedAt q.p :=
        (inv.toLayout.unusedAt unused).insertIntoVpRare
      rw [rare.dedicated] at dedicated
      cases dedicated
    · exact right

theorem CountsRight.insertEncodedTriple_iff {session : Session} {q : Quad} (h : st.CountsRight)
    (inv : st.Inv) (seq : st.seq.Positive) :
    (Store.insertEncodedTriple session q st).2.CountsRight ↔
      (st.isDedicated q.p = true → ¬ st.Visible q) := by
  rw [Store.insertEncodedTriple]
  split
  · rename_i hp
    rw [h.insertIntoDelta_iff inv.toLayout hp]
    simp [hp]
  · rename_i hp
    have unused : st.isDedicated q.p = false := by simpa using hp
    exact iff_of_true (h.insertIntoVpRare inv.toLayout seq unused)
      fun dedicated => absurd dedicated hp

theorem CountsRight.apply_iff {op : Op} (h : st.CountsRight) (inv : st.Inv)
    (seq : st.seq.Positive) : op.KeepsCount st ↔ (op.apply st).CountsRight := by
  cases op with
  | insertTriple cfg session q => exact (h.insertTriple_iff inv seq).symm
  | insertEncodedTriple session q => exact (h.insertEncodedTriple_iff inv seq).symm
  | batchInsertEncoded session p keys => exact (h.batchInsertEncoded_iff inv.toLayout).symm
  | deleteTriple session q => exact (h.deleteQuad_iff inv).symm
  | deleteTripleByIds session q => exact (h.deleteQuad_iff inv).symm
  | promotePredicate p => exact (h.promotePredicate_iff inv.toLayout).symm
  | mergePredicate cfg p => exact (h.mergePredicate_iff inv).symm
  | clearGraphById session g => exact (h.clearGraphById_iff inv).symm
  | dropGraph session g => exact (h.dropGraph_iff inv).symm

/-- The guard keeps `drop_graph` from leaving tombstones behind a skip form. -/
theorem Inv.apply_of_keepsCount {op : Op} (h : st.Inv) (keeps : op.KeepsCount st) :
    (op.apply st).Inv := by
  cases op with
  | dropGraph session g => exact h.dropGraph keeps.2
  | _ => exact h.apply trivial

theorem countsRight_initial : initial.CountsRight := by
  intro p
  refine counted_iff.mpr ?_
  have none : initial.visibleKeys p = ∅ := by
    apply Finset.eq_empty_of_forall_notMem
    intro k visible
    rw [mem_visibleKeys, visible_iff_mem_rare rfl] at visible
    cases visible
  rw [none]
  rfl

/-- A run keeps the counters right exactly if each of its operations does where it is called. -/
theorem always_countsRight_iff (ops : List Op) :
    Run.Always (fun st op => some (Op.apply op st)) CountsRight initial ops ↔
      Run.Along (fun st op => some (Op.apply op st)) (fun st op => op.KeepsCount st) initial
        ops := by
  have start : initial.CountsRight ∧ initial.Inv ∧ initial.seq.Positive :=
    ⟨countsRight_initial, inv_initial, Sequence.positive_initial⟩
  have keeps : ∀ (st : Store), ∀ op ∈ ops, ∀ st', st.Inv ∧ st.seq.Positive →
      op.KeepsCount st → some (op.apply st) = some st' → st'.Inv ∧ st'.seq.Positive := by
    rintro st op - st' ⟨inv, seq⟩ guard stepped
    cases stepped
    exact ⟨inv.apply_of_keepsCount guard, (later_apply op).positive seq⟩
  refine Run.always_iff_along _ keeps ?_ start.2 start.1
  rintro st op - ⟨inv, seq⟩ right
  rw [right.apply_iff inv seq]
  simp

/-- A triple of a promoted predicate that is inserted again is counted again. -/
theorem not_always_countsRight :
    ¬ Run.Always (fun st op => some (Op.apply op st)) CountsRight initial
      [.insertTriple ⟨1000, true, 0⟩ 0 ⟨1, 2, 3, 0⟩, .promotePredicate 2,
        .insertTriple ⟨1000, true, 0⟩ 0 ⟨1, 2, 3, 0⟩] := by
  rintro ⟨-, -, -, last⟩
  have counted := (last 2).exact_
  revert counted
  decide

end Store

end PgRipple.Storage
