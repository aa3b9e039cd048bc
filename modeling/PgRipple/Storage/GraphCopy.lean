import PgRipple.Storage.Sited

/-!
# Copying a graph

`execute_add_by_ids` goes through all predicates of the catalog and inserts the rows of one graph
once more, under another graph. It reads a dedicated predicate through its view and writes to
`delta`, and it reads and writes `vp_rare` for the others. Rows that the target has already are
skipped, but `main` is not asked: a row of the target may afterwards lie in `main` and in `delta`.
-/

namespace PgRipple.Storage

/-- The same triple in another graph. -/
def Key.inGraph (k : Key) (g : TermId) : Key := { k with g := g }

/-- The same triple in another graph. -/
def Quad.inGraph (q : Quad) (g : TermId) : Quad := { q with g := g }

namespace Store

/-- `SELECT s, o, dst FROM vp_p WHERE g = src`. -/
def copiedKeys (src dst : TermId) (t : HtapTables) : List Key :=
  (t.htapView.filter fun r => r.key.g = src).map fun r => r.key.inGraph dst

/-- `INSERT INTO delta … ON CONFLICT (s, o, g) DO NOTHING`: the number of new rows. -/
def copyIntoDelta (session : Session) (src dst p : TermId) (st : Store) : Int × Store :=
  let t := st.tables p
  let (stamped, seq) := st.seq.stamp session (copiedKeys src dst t)
  let delta := t.delta.insertAll (stamped.map fun (k, i) => (⟨k, i, 0⟩ : Row))
  (delta.rows.length - t.delta.rows.length,
    { st with seq := seq }.setTables p { t with delta := delta })

/-- `INSERT INTO vp_rare … ON CONFLICT (p, s, o, g) DO NOTHING`: the number of new rows. -/
def copyIntoVpRare (session : Session) (src dst p : TermId) (st : Store) : Int × Store :=
  let quads := (st.rare.rows.filter fun r => r.quad.p = p ∧ r.quad.g = src).map fun r =>
    r.quad.inGraph dst
  let (stamped, seq) := st.seq.stamp session quads
  let rare := st.rare.insertAll (stamped.map fun (q, i) => (⟨q, i, 0⟩ : RareRow))
  (rare.rows.length - st.rare.rows.length, { st with seq := seq, rare := rare })

/-- One round of the loop in `execute_add_by_ids`. Only a dedicated predicate is counted. -/
def addGraphIn (session : Session) (src dst : TermId) (acc : Int × Store) (p : TermId) :
    Int × Store :=
  if acc.2.isDedicated p then
    let (n, st) := copyIntoDelta session src dst p acc.2
    (acc.1 + n, if 0 < n then st.addTripleCount p n else st)
  else
    let (n, st) := copyIntoVpRare session src dst p acc.2
    (acc.1 + n, st)

variable {st : Store} {session : Session} {src dst p p' : TermId} {q : Quad} {acc : Int × Store}

@[simp] theorem mem_copiedKeys {t : HtapTables} {k : Key} :
    k ∈ copiedKeys src dst t ↔ k.g = dst ∧ t.Shows (k.inGraph src) := by
  simp only [copiedKeys, HtapTables.Shows, List.mem_map, List.mem_filter, decide_eq_true_eq]
  constructor
  · rintro ⟨r, ⟨hr, rfl⟩, rfl⟩
    exact ⟨rfl, r, hr, rfl⟩
  · rintro ⟨rfl, r, hr, same⟩
    refine ⟨r, ⟨hr, congrArg Key.g same⟩, ?_⟩
    rw [same]
    rfl

theorem tables_copyIntoDelta :
    (copyIntoDelta session src dst p st).2.tables p =
      { st.tables p with
        delta := (st.tables p).delta.insertAll
          ((st.seq.stamp session (copiedKeys src dst (st.tables p))).1.map
            fun x => ⟨x.1, x.2, 0⟩) } := by
  simp [copyIntoDelta]

theorem onlyAt_copyIntoDelta : OnlyAt p st (copyIntoDelta session src dst p st).2 := by
  refine OnlyAt.trans ?_ onlyAt_setTables
  exact .of_eq p rfl rfl Sequence.lastValue_le_stamp

theorem DedicatedAt.copyIntoDelta (h : st.DedicatedAt p) :
    (copyIntoDelta session src dst p st).2.DedicatedAt p := by
  have drawn : { st with
      seq := (st.seq.stamp session (copiedKeys src dst (st.tables p))).2 }.DedicatedAt p :=
    h.of_eq rfl rfl Sequence.lastValue_le_stamp
  exact drawn.setDelta _

/-- The view shows the rows of the source in the target. -/
theorem shows_copyIntoDelta {k : Key} :
    ((copyIntoDelta session src dst p st).2.tables p).Shows k ↔
      (st.tables p).Shows k ∨ k.g = dst ∧ (st.tables p).Shows (k.inGraph src) := by
  have drawn : (st.seq.stamp session (copiedKeys src dst (st.tables p))).1.map (fun x => x.1) =
      copiedKeys src dst (st.tables p) := Sequence.map_fst_stamp
  rw [tables_copyIntoDelta, HtapTables.shows_iff, ← mem_copiedKeys, HtapTables.shows_iff]
  simp only [HtapTables.InDelta, UniqueTable.hasKey_insertAll, List.map_map, Function.comp_def,
    drawn, ← or_assoc]
  exact Iff.rfl

theorem rare_copyIntoVpRare :
    (copyIntoVpRare session src dst p st).2.rare.HasKey q ↔
      st.rare.HasKey q ∨ q.p = p ∧ q.g = dst ∧ st.rare.HasKey (q.inGraph src) := by
  have drawn (quads : List Quad) :
      (st.seq.stamp session quads).1.map (fun x => x.1) = quads := Sequence.map_fst_stamp
  simp only [copyIntoVpRare, UniqueTable.hasKey_insertAll, List.map_map, Function.comp_def, drawn]
  refine or_congr Iff.rfl ?_
  simp only [List.mem_map, List.mem_filter, decide_eq_true_eq, UniqueTable.hasKey_iff]
  constructor
  · rintro ⟨r, ⟨hr, rfl, rfl⟩, rfl⟩
    exact ⟨rfl, rfl, r, hr, rfl⟩
  · rintro ⟨rfl, rfl, r, hr, same⟩
    have place : r.quad.p = q.p ∧ r.quad.g = src := by
      rw [same]
      exact ⟨rfl, rfl⟩
    refine ⟨r, ⟨hr, place⟩, ?_⟩
    rw [same]
    rfl

theorem onlyAt_copyIntoVpRare : OnlyAt p st (copyIntoVpRare session src dst p st).2 :=
  .of_eq p rfl rfl Sequence.lastValue_le_stamp

theorem UnusedAt.copyIntoVpRare (h : st.UnusedAt p) :
    (copyIntoVpRare session src dst p st).2.UnusedAt p := ⟨h.dedicated, h.htap, h.tables⟩

theorem addGraphIn_of_dedicated (hp : acc.2.isDedicated p = true) :
    (addGraphIn session src dst acc p).2.tables =
        (copyIntoDelta session src dst p acc.2).2.tables ∧
      (addGraphIn session src dst acc p).2.rare = acc.2.rare ∧
      ∀ p', (addGraphIn session src dst acc p).2.isDedicated p' = acc.2.isDedicated p' := by
  rw [addGraphIn, if_pos hp]
  dsimp only
  split
  · exact ⟨rfl, rfl, fun _ => isDedicated_updatePredicate fun _ => rfl⟩
  · exact ⟨rfl, rfl, fun _ => rfl⟩

theorem addGraphIn_of_not_dedicated (hp : acc.2.isDedicated p = false) :
    (addGraphIn session src dst acc p).2 = (copyIntoVpRare session src dst p acc.2).2 := by
  rw [addGraphIn, if_neg (by simp [hp])]

theorem onlyAt_addGraphIn : OnlyAt p acc.2 (addGraphIn session src dst acc p).2 := by
  unfold addGraphIn
  split
  · dsimp only
    split
    · exact onlyAt_copyIntoDelta.trans onlyAt_updatePredicate
    · exact onlyAt_copyIntoDelta
  · exact onlyAt_copyIntoVpRare

theorem DedicatedAt.addGraphIn (h : acc.2.DedicatedAt p) :
    (addGraphIn session src dst acc p).2.DedicatedAt p := by
  rw [Store.addGraphIn, if_pos h.dedicated]
  dsimp only
  split
  · exact h.copyIntoDelta.addTripleCount
  · exact h.copyIntoDelta

theorem Layout.addGraphIn (h : acc.2.Layout) :
    (addGraphIn session src dst acc p).2.Layout := by
  cases hp : acc.2.isDedicated p with
  | true =>
    refine h.of_dedicatedAt onlyAt_addGraphIn hp (h.dedicatedAt hp).addGraphIn ?_
    intro q hq
    rwa [(addGraphIn_of_dedicated hp).2.1] at hq
  | false =>
    rw [addGraphIn_of_not_dedicated hp]
    refine h.of_onlyAt onlyAt_copyIntoVpRare (.inr (h.unusedAt hp).copyIntoVpRare) ?_
    intro q hq
    obtain old | new := rare_copyIntoVpRare.mp hq
    · exact h.rare q old
    · rw [new.1]
      exact hp

/-- A round shows the rows of its predicate in the target. -/
theorem Layout.visible_addGraphIn (h : acc.2.Layout) :
    (Store.addGraphIn session src dst acc p).2.Visible q ↔
      acc.2.Visible q ∨ q.p = p ∧ q.g = dst ∧ acc.2.Visible (q.inGraph src) := by
  by_cases same : q.p = p
  · subst same
    have moved : (q.inGraph src).p = q.p := rfl
    cases hp : acc.2.isDedicated q.p with
    | true =>
      obtain ⟨tables, rare, dedicated⟩ :=
        @addGraphIn_of_dedicated session src dst q.p acc hp
      have absent (q' : Quad) (hq' : q'.p = q.p) : ¬ acc.2.rare.HasKey q' := by
        intro present
        have := h.rare q' present
        rw [hq', hp] at this
        cases this
      rw [Visible, Visible, Visible, tables, rare, dedicated, moved, hp, shows_copyIntoDelta]
      simp only [true_and, absent q rfl, absent _ moved, or_false]
      exact Iff.rfl
    | false =>
      rw [addGraphIn_of_not_dedicated hp, Visible, Visible, Visible, rare_copyIntoVpRare, moved]
      have after : (copyIntoVpRare session src dst q.p acc.2).2.isDedicated q.p = false := hp
      simp only [hp, after, Bool.false_eq_true, false_and, false_or, true_and]
  · have rare : (Store.addGraphIn session src dst acc p).2.rare.HasKey q ↔
        acc.2.rare.HasKey q := by
      cases hp : acc.2.isDedicated p with
      | true => rw [(addGraphIn_of_dedicated hp).2.1]
      | false =>
        rw [addGraphIn_of_not_dedicated hp, rare_copyIntoVpRare]
        simp [same]
    rw [onlyAt_addGraphIn.visible_iff same rare]
    simp [same]

end Store

end PgRipple.Storage
