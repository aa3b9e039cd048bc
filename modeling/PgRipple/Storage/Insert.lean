import PgRipple.Storage.Invariant

/-!
# Inserting and promoting

Inserts add to `delta` for a dedicated predicate and to `vp_rare` otherwise, and
promotion moves a predicate from the second case to the first. Each operation is
described once, by what it does to the tables of its predicate and to `vp_rare`;
the invariants and the visible quads follow from the description.
-/

namespace PgRipple.Storage.Store

variable {st : Store} {p : TermId} {session : Session} {q : Quad}

theorem tables_insertIntoDelta (session : Session) (q : Quad) (st : Store) :
    (insertIntoDelta session q st).2.tables q.p =
      { st.tables q.p with
        delta := (st.tables q.p).delta.upsert ⟨q.key, (st.seq.nextval session).1, 0⟩
          (fun r => { r with i := (st.seq.nextval session).1 }) fun _ => rfl } := by
  simp [insertIntoDelta, addTripleCount]

theorem DedicatedAt.insertIntoDelta (h : st.DedicatedAt q.p) :
    (insertIntoDelta session q st).2.DedicatedAt q.p := by
  have drawn : { st with seq := (st.seq.nextval session).2 }.DedicatedAt q.p :=
    h.of_eq rfl rfl (Sequence.lastValue_le_nextval ..)
  exact (drawn.setDelta _).addTripleCount

theorem Layout.insertIntoDelta (h : st.Layout) (hp : st.isDedicated q.p = true) :
    (insertIntoDelta session q st).2.Layout :=
  h.of_dedicatedAt onlyAt_insertIntoDelta hp (h.dedicatedAt hp).insertIntoDelta fun _ hq => hq

theorem Inv.insertIntoDelta (h : st.Inv) (hp : st.isDedicated q.p = true) :
    (insertIntoDelta session q st).2.Inv := by
  refine h.of_onlyAt onlyAt_insertIntoDelta (h.toLayout.insertIntoDelta hp) ?_
  rw [tables_insertIntoDelta]
  exact h.clean q.p

/-- A catalog upsert for `vp_rare` does not turn a predicate into a dedicated one. -/
theorem UnusedAt.upsertRarePredicate (h : st.UnusedAt p) {n : Int} :
    (st.upsertRarePredicate p n).UnusedAt p := by
  have dedicated := h.dedicated
  have htap := h.htap
  refine ⟨?_, ?_, h.tables⟩
  · unfold isDedicated at dedicated ⊢
    simp only [Store.upsertRarePredicate, UniqueTable.find?_upsert]
    cases found : st.predicates.find? p <;> simp_all
  · unfold isHtap at htap ⊢
    simp only [Store.upsertRarePredicate, UniqueTable.find?_upsert]
    cases found : st.predicates.find? p <;> simp_all

theorem UnusedAt.insertIntoVpRare (h : st.UnusedAt q.p) :
    (insertIntoVpRare session q st).2.UnusedAt q.p := by
  have drawn : (insertRareRow session q st).2.UnusedAt q.p := ⟨h.dedicated, h.htap, h.tables⟩
  simp only [Store.insertIntoVpRare]
  split
  · exact drawn
  · exact drawn.upsertRarePredicate

theorem rare_insertIntoVpRare {q' : Quad} :
    (insertIntoVpRare session q st).2.rare.HasKey q' ↔ st.rare.HasKey q' ∨ q' = q := by
  have drawn : (insertRareRow session q st).2.rare.HasKey q' ↔ st.rare.HasKey q' ∨ q' = q :=
    UniqueTable.hasKey_insertNew
  simp only [Store.insertIntoVpRare]
  split
  · exact drawn
  · exact drawn

theorem Layout.insertIntoVpRare (h : st.Layout) (hp : st.isDedicated q.p = false) :
    (insertIntoVpRare session q st).2.Layout := by
  have unused : (Store.insertIntoVpRare session q st).2.UnusedAt q.p :=
    (h.unusedAt hp).insertIntoVpRare
  refine h.of_onlyAt onlyAt_insertIntoVpRare (.inr unused) ?_
  intro q' hq'
  by_cases same : q'.p = q.p
  · rw [same]
    exact unused.dedicated
  · rw [onlyAt_insertIntoVpRare.isDedicated same]
    cases rare_insertIntoVpRare.mp hq' with
    | inl old => exact h.rare q' old
    | inr new => exact absurd (congrArg Quad.p new) same

theorem Inv.insertIntoVpRare (h : st.Inv) (hp : st.isDedicated q.p = false) :
    (insertIntoVpRare session q st).2.Inv := by
  refine h.of_onlyAt onlyAt_insertIntoVpRare (h.toLayout.insertIntoVpRare hp) ?_
  rw [((h.toLayout.unusedAt hp).insertIntoVpRare).tables]
  intro view
  cases view

theorem dedicatedAt_ensureVpTable (here : st.DedicatedAt p ∨ st.UnusedAt p) :
    (st.ensureVpTable p).DedicatedAt p := by
  cases here with
  | inl used =>
    rw [ensureVpTable, if_pos used.dedicated]
    exact used
  | inr unused =>
    rw [ensureVpTable, if_neg (by simp [unused.dedicated])]
    have tables : (st.ensureHtapTables p).tables p = HtapTables.fresh := by
      simp [ensureHtapTables, rebuildHtapView, unused.tables, HtapTables.fresh]
    cases found : st.predicates.find? p with
    | none =>
      refine .of_row (r := ⟨p, true, 0, true, 0⟩) ?_ rfl rfl (fun _ => rfl) ?_
      · simp [ensureHtapTables, rebuildHtapView, UniqueTable.find?_upsert, found]
      · simp [tables, HtapTables.fresh]
    | some r =>
      refine .of_row (r := { r with hasTable := true, htap := true }) ?_ rfl rfl ?_ ?_
      · simp [ensureHtapTables, rebuildHtapView, UniqueTable.find?_upsert, found]
      · intro view
        simp [tables, HtapTables.fresh] at view
      · simp [tables, HtapTables.fresh]

/-- Creating the tables of an unused predicate leaves them as they were: empty. -/
theorem tables_ensureVpTable (here : st.DedicatedAt p ∨ st.UnusedAt p) :
    (st.ensureVpTable p).tables p = st.tables p := by
  cases here with
  | inl used => rw [ensureVpTable, if_pos used.dedicated]
  | inr unused =>
    rw [ensureVpTable, if_neg (by simp [unused.dedicated])]
    simp [ensureHtapTables, rebuildHtapView, unused.tables, HtapTables.fresh]

theorem rare_ensureVpTable : (st.ensureVpTable p).rare = st.rare := by
  unfold ensureVpTable
  split <;> rfl

/-- The rows that promotion moves, as delta rows. -/
def rareRowsOf (st : Store) (p : TermId) : List Row :=
  (st.rare.rows.filter fun r => r.quad.p = p).map fun r => ⟨r.quad.key, r.i, r.source⟩

theorem mem_map_key_rareRowsOf {k : Key} :
    k ∈ (st.rareRowsOf p).map Row.key ↔ st.rare.HasKey (k.quad p) := by
  simp only [rareRowsOf, List.map_map, UniqueTable.hasKey_iff, List.mem_map, List.mem_filter,
    decide_eq_true_eq, Function.comp_apply]
  constructor
  · intro ⟨r, ⟨hr, hp⟩, hk⟩
    exact ⟨r, hr, Quad.ext_key hp hk⟩
  · intro ⟨r, hr, hq⟩
    exact ⟨r, ⟨hr, by rw [hq, Key.quad_p]⟩, by rw [hq, Key.quad_key]⟩

theorem tables_promotePredicate (here : st.DedicatedAt p ∨ st.UnusedAt p) :
    (st.promotePredicate p).tables p =
      { st.tables p with delta := (st.tables p).delta.insertAll (st.rareRowsOf p) } := by
  simp [promotePredicate, tables_ensureVpTable here, rare_ensureVpTable, rareRowsOf]

theorem rare_promotePredicate {q : Quad} :
    (st.promotePredicate p).rare.HasKey q ↔ st.rare.HasKey q ∧ q.p ≠ p := by
  simp only [promotePredicate, updatePredicate_rare, setTables_rare, rare_ensureVpTable]
  have deleted := UniqueTable.hasKey_deleteWhere (t := st.rare) (k := q) fun q => decide (q.p = p)
  simpa only [decide_eq_false_iff_not] using deleted

theorem dedicatedAt_promotePredicate (here : st.DedicatedAt p ∨ st.UnusedAt p) :
    (st.promotePredicate p).DedicatedAt p := by
  refine DedicatedAt.updatePredicate ?_ (fun _ _ => rfl) (fun _ => rfl) fun _ => id
  refine DedicatedAt.setTables ?_ (fun view => view) fun _ hx => hx
  exact (dedicatedAt_ensureVpTable here).of_eq rfl rfl le_rfl

theorem Layout.promotePredicate (h : st.Layout) : (st.promotePredicate p).Layout := by
  have here := dedicatedAt_promotePredicate (h.predicate p)
  refine h.of_onlyAt onlyAt_promotePredicate (.inl here) ?_
  intro q hq
  obtain ⟨old, hp⟩ := rare_promotePredicate.mp hq
  rw [onlyAt_promotePredicate.isDedicated hp]
  exact h.rare q old

theorem Inv.promotePredicate (h : st.Inv) : (st.promotePredicate p).Inv := by
  refine h.of_onlyAt onlyAt_promotePredicate h.toLayout.promotePredicate ?_
  rw [tables_promotePredicate (h.predicate p)]
  exact h.clean p

theorem Layout.insertTriple {cfg : Config} (h : st.Layout) :
    (insertTriple cfg session q st).2.Layout := by
  unfold Store.insertTriple
  split
  · rename_i hp
    exact h.insertIntoDelta hp
  · rename_i hp
    have rare : (Store.insertIntoVpRare session q st).2.Layout :=
      h.insertIntoVpRare (by simpa using hp)
    simp only
    split
    · exact rare.promotePredicate
    · exact rare

theorem Inv.insertTriple {cfg : Config} (h : st.Inv) :
    (insertTriple cfg session q st).2.Inv := by
  unfold Store.insertTriple
  split
  · rename_i hp
    exact h.insertIntoDelta hp
  · rename_i hp
    have rare : (Store.insertIntoVpRare session q st).2.Inv :=
      h.insertIntoVpRare (by simpa using hp)
    simp only
    split
    · exact rare.promotePredicate
    · exact rare

theorem Layout.insertEncodedTriple (h : st.Layout) :
    (insertEncodedTriple session q st).2.Layout := by
  unfold Store.insertEncodedTriple
  split
  · rename_i hp
    exact h.insertIntoDelta hp
  · rename_i hp
    exact h.insertIntoVpRare (by simpa using hp)

theorem Inv.insertEncodedTriple (h : st.Inv) : (insertEncodedTriple session q st).2.Inv := by
  unfold Store.insertEncodedTriple
  split
  · rename_i hp
    exact h.insertIntoDelta hp
  · rename_i hp
    exact h.insertIntoVpRare (by simpa using hp)

theorem tables_batchIntoDelta (session : Session) (p : TermId) (keys : List Key) (st : Store) :
    (batchIntoDelta session p keys st).tables p =
      { st.tables p with
        delta := (st.tables p).delta.insertAll
          ((st.seq.stamp session keys).1.map fun x => ⟨x.1, x.2, 0⟩) } := by
  simp [batchIntoDelta, addTripleCount]

theorem DedicatedAt.batchIntoDelta {keys : List Key} (h : st.DedicatedAt p) :
    (batchIntoDelta session p keys st).DedicatedAt p := by
  have drawn : { st with seq := (st.seq.stamp session keys).2 }.DedicatedAt p :=
    h.of_eq rfl rfl Sequence.lastValue_le_stamp
  exact (drawn.setDelta _).addTripleCount

theorem Layout.batchIntoDelta {keys : List Key} (h : st.Layout) (hp : st.isDedicated p = true) :
    (batchIntoDelta session p keys st).Layout :=
  h.of_dedicatedAt onlyAt_batchIntoDelta hp (h.dedicatedAt hp).batchIntoDelta fun _ hq => hq

/-- A batch adds exactly its quads to `vp_rare`; filtering duplicates changes no key. -/
theorem rare_batchIntoVpRare {keys : List Key} :
    (batchIntoVpRare session p keys st).rare.HasKey q ↔
      st.rare.HasKey q ∨ (q.p = p ∧ q.key ∈ keys) := by
  have drawn (quads : List Quad) :
      (st.seq.stamp session quads).1.map (fun x => x.1) = quads := Sequence.map_fst_stamp
  simp only [batchIntoVpRare, upsertRarePredicate, UniqueTable.hasKey_insertAll, List.map_map,
    Function.comp_def, drawn, List.mem_filter, List.mem_map, List.mem_eraseDups]
  constructor
  · intro h
    cases h with
    | inl old => exact .inl old
    | inr new =>
      obtain ⟨⟨k, hk, rfl⟩, -⟩ := new
      exact .inr ⟨rfl, hk⟩
  · intro h
    by_cases present : st.rare.HasKey q
    · exact .inl present
    · obtain ⟨rfl, hk⟩ := h.resolve_left present
      exact .inr ⟨⟨q.key, hk, rfl⟩, by simpa using present⟩

theorem Layout.batchIntoVpRare {keys : List Key} (h : st.Layout)
    (hp : st.isDedicated p = false) : (batchIntoVpRare session p keys st).Layout := by
  have unused : (Store.batchIntoVpRare session p keys st).UnusedAt p := by
    refine UnusedAt.upsertRarePredicate ?_
    have old := h.unusedAt hp
    exact ⟨old.dedicated, old.htap, old.tables⟩
  refine h.of_onlyAt onlyAt_batchIntoVpRare (.inr unused) ?_
  intro q hq
  by_cases same : q.p = p
  · rw [same]
    exact unused.dedicated
  · rw [onlyAt_batchIntoVpRare.isDedicated same]
    cases rare_batchIntoVpRare.mp hq with
    | inl old => exact h.rare q old
    | inr new => exact absurd new.1 same

theorem Layout.batchInsertEncoded {keys : List Key} (h : st.Layout) :
    (batchInsertEncoded session p keys st).2.Layout := by
  unfold Store.batchInsertEncoded
  split
  · exact h
  split
  · rename_i hp
    exact h.batchIntoDelta hp
  · rename_i hp
    exact h.batchIntoVpRare (by simpa using hp)

theorem Inv.batchInsertEncoded {keys : List Key} (h : st.Inv) :
    (batchInsertEncoded session p keys st).2.Inv := by
  refine h.of_onlyAt onlyAt_batchInsertEncoded h.toLayout.batchInsertEncoded ?_
  unfold Store.batchInsertEncoded
  split
  · exact h.clean p
  split
  · simp only [tables_batchIntoDelta]
    exact h.clean p
  · exact h.clean p

theorem isDedicated_insertIntoDelta {p' : TermId} :
    (insertIntoDelta session q st).2.isDedicated p' = st.isDedicated p' := by
  simp only [insertIntoDelta, addTripleCount]
  exact isDedicated_updatePredicate fun _ => rfl

theorem visible_insertIntoDelta (hp : st.isDedicated q.p = true) (q' : Quad) :
    (insertIntoDelta session q st).2.Visible q' ↔ st.Visible q' ∨ q' = q := by
  by_cases same : q'.p = q.p
  · have shown : ((insertIntoDelta session q st).2.tables q.p).Shows q'.key ↔
        (st.tables q.p).Shows q'.key ∨ q'.key = q.key := by
      rw [tables_insertIntoDelta, HtapTables.shows_iff, HtapTables.shows_iff]
      simp only [HtapTables.InDelta, UniqueTable.hasKey_upsert, ← or_assoc]
      exact Iff.rfl
    have named : q'.key = q.key ↔ q' = q := ⟨Quad.ext_key same, congrArg Quad.key⟩
    rw [named] at shown
    rw [Visible, Visible, isDedicated_insertIntoDelta, same, shown]
    simp only [hp, true_and]
    exact or_right_comm
  · have other : q' ≠ q := fun h => same (congrArg Quad.p h)
    rw [onlyAt_insertIntoDelta.visible_iff same Iff.rfl]
    simp [other]

theorem Layout.visible_insertIntoVpRare (h : st.Layout) (hp : st.isDedicated q.p = false)
    (q' : Quad) : (Store.insertIntoVpRare session q st).2.Visible q' ↔ st.Visible q' ∨ q' = q := by
  by_cases same : q'.p = q.p
  · have before := (h.unusedAt hp).dedicated
    have after : (Store.insertIntoVpRare session q st).2.isDedicated q.p = false :=
      (h.unusedAt hp).insertIntoVpRare.dedicated
    rw [Visible, Visible, rare_insertIntoVpRare, same, before, after]
    simp
  · have other : q' ≠ q := fun h => same (congrArg Quad.p h)
    have rare : (Store.insertIntoVpRare session q st).2.rare.HasKey q' ↔ st.rare.HasKey q' := by
      rw [rare_insertIntoVpRare]
      simp [other]
    rw [onlyAt_insertIntoVpRare.visible_iff same rare]
    simp [other]

theorem visible_batchIntoDelta (hp : st.isDedicated p = true) (keys : List Key) (q : Quad) :
    (Store.batchIntoDelta session p keys st).Visible q ↔
      st.Visible q ∨ (q.p = p ∧ q.key ∈ keys) := by
  have dedicated : (Store.batchIntoDelta session p keys st).isDedicated
      q.p = st.isDedicated q.p := by
    simp only [Store.batchIntoDelta, addTripleCount]
    exact isDedicated_updatePredicate fun _ => rfl
  by_cases same : q.p = p
  · subst same
    have drawn : (st.seq.stamp session keys).1.map (fun x => x.1) = keys := Sequence.map_fst_stamp
    have shown : ((Store.batchIntoDelta session q.p keys st).tables q.p).Shows q.key ↔
        (st.tables q.p).Shows q.key ∨ q.key ∈ keys := by
      rw [tables_batchIntoDelta, HtapTables.shows_iff, HtapTables.shows_iff]
      simp only [HtapTables.InDelta, UniqueTable.hasKey_insertAll, List.map_map, Function.comp_def,
        drawn, ← or_assoc]
      exact Iff.rfl
    rw [Visible, Visible, dedicated, shown]
    simp only [hp, true_and]
    exact or_right_comm
  · rw [onlyAt_batchIntoDelta.visible_iff same Iff.rfl]
    simp [same]

theorem Layout.visible_batchIntoVpRare (h : st.Layout) (hp : st.isDedicated p = false)
    (keys : List Key) (q : Quad) :
    (Store.batchIntoVpRare session p keys st).Visible q ↔
      st.Visible q ∨ (q.p = p ∧ q.key ∈ keys) := by
  by_cases same : q.p = p
  · subst same
    have after : (Store.batchIntoVpRare session q.p keys st).isDedicated q.p = false := by
      have old := h.unusedAt hp
      exact (UnusedAt.upsertRarePredicate ⟨old.dedicated, old.htap, old.tables⟩).dedicated
    rw [Visible, Visible, rare_batchIntoVpRare, hp, after]
    simp
  · have rare : (Store.batchIntoVpRare session p keys st).rare.HasKey q ↔ st.rare.HasKey q := by
      rw [rare_batchIntoVpRare]
      simp [same]
    rw [onlyAt_batchIntoVpRare.visible_iff same rare]
    simp [same]

/-- A batch makes its quads visible and nothing else. -/
theorem Layout.visible_batchInsertEncoded (h : st.Layout) (keys : List Key) (q : Quad) :
    (Store.batchInsertEncoded session p keys st).2.Visible q ↔
      st.Visible q ∨ (q.p = p ∧ q.key ∈ keys) := by
  unfold Store.batchInsertEncoded
  split
  · rename_i empty
    have none : keys = [] := List.isEmpty_iff.mp empty
    simp [none]
  split
  · rename_i hp
    exact visible_batchIntoDelta hp keys q
  · rename_i hp
    exact h.visible_batchIntoVpRare (by simpa using hp) keys q

/-- Promotion changes where rows are kept and nothing a reader can see. -/
theorem visible_promotePredicate (here : st.DedicatedAt p ∨ st.UnusedAt p) (q : Quad) :
    (st.promotePredicate p).Visible q ↔ st.Visible q := by
  by_cases same : q.p = p
  · subst same
    have after := (dedicatedAt_promotePredicate here).dedicated
    have moved : (st.tables q.p).Shows q.key ∨ st.rare.HasKey q ↔
        ((st.promotePredicate q.p).tables q.p).Shows q.key := by
      rw [tables_promotePredicate here, HtapTables.shows_iff, HtapTables.shows_iff]
      simp only [HtapTables.InDelta, UniqueTable.hasKey_insertAll, mem_map_key_rareRowsOf,
        Quad.key_quad, ← or_assoc]
      exact Iff.rfl
    rw [Visible, Visible, after, rare_promotePredicate, ← moved]
    cases here with
    | inl used => simp [used.dedicated]
    | inr unused => simp [unused.dedicated, unused.tables]
  · have rare : (st.promotePredicate p).rare.HasKey q ↔ st.rare.HasKey q := by
      rw [rare_promotePredicate]
      simp [same]
    exact onlyAt_promotePredicate.visible_iff same rare

theorem Layout.visible_promotePredicate (h : st.Layout) (q : Quad) :
    (st.promotePredicate p).Visible q ↔ st.Visible q :=
  Store.visible_promotePredicate (h.predicate p) q

/-- Inserting makes the quad visible, whichever layout its predicate is in and
whether or not the insert triggers promotion. -/
theorem Layout.visible_insertTriple {cfg : Config} (h : st.Layout) (q' : Quad) :
    (Store.insertTriple cfg session q st).2.Visible q' ↔ st.Visible q' ∨ q' = q := by
  unfold Store.insertTriple
  split
  · rename_i hp
    exact visible_insertIntoDelta hp q'
  · rename_i hp
    have unused : st.isDedicated q.p = false := by simpa using hp
    have rare : (Store.insertIntoVpRare session q st).2.Layout := h.insertIntoVpRare unused
    simp only
    split
    · exact (rare.visible_promotePredicate q').trans (h.visible_insertIntoVpRare unused q')
    · exact h.visible_insertIntoVpRare unused q'

/-- So does an insert that leaves promotion to its caller. -/
theorem Layout.visible_insertEncodedTriple (h : st.Layout) (q' : Quad) :
    (Store.insertEncodedTriple session q st).2.Visible q' ↔ st.Visible q' ∨ q' = q := by
  unfold Store.insertEncodedTriple
  split
  · rename_i hp
    exact visible_insertIntoDelta hp q'
  · rename_i hp
    exact h.visible_insertIntoVpRare (by simpa using hp) q'

end PgRipple.Storage.Store
