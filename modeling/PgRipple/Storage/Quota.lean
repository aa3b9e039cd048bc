import Mathlib.Data.Finset.Card
import PgRipple.Lib.Run
import PgRipple.Storage.Correctness
import PgRipple.Storage.GraphCopy

/-!
# The quota of a tenant

A tenant with a quota has a trigger on `vp_rare`. After a statement that inserted rows there it
counts the rows of the tenant's graph in `vp_rare`, and too many of them abort the transaction.
The tables of dedicated predicates have no trigger, and their rows are not counted.

A transaction is a list of writes. In an update there are several; any other call is one write.
-/

namespace PgRipple.Storage

open Store

/-- `ADD`, `COPY` and `MOVE` copy the rows of one predicate after the other. -/
inductive Write where
  | op (op : Op)
  | addGraphIn (session : Session) (src dst p : TermId)

/-- The visible quads of a graph. -/
def Store.graphQuads (st : Store) (g : TermId) : Finset Quad :=
  (((st.dedicatedPredicates.flatMap fun p => (st.tables p).htapView.map fun r => r.key.quad p) ++
    st.rare.rows.map RareRow.quad).filter fun q => q.g = g).toFinset

/-- The rows of a graph in `vp_rare`. -/
def Store.rareQuadsIn (st : Store) (g : TermId) : Finset Quad :=
  ((st.rare.rows.map RareRow.quad).filter fun q => q.g = g).toFinset

namespace Write

def apply : Write → Store → Store
  | op o, st => o.apply st
  | addGraphIn session src dst p, st => (Store.addGraphIn session src dst (0, st) p).2

/-- The store after the statement that inserts into `vp_rare`, if there is one. -/
def intoVpRare : Write → Store → Option Store
  | op (.insertTriple _ session q), st | op (.insertEncodedTriple session q), st =>
    if st.isDedicated q.p then none else some (insertIntoVpRare session q st).2
  | op (.batchInsertEncoded session p keys), st =>
    if keys.isEmpty ∨ st.isDedicated p then none else some (batchIntoVpRare session p keys st)
  | addGraphIn session src dst p, st =>
    if st.isDedicated p then none else some (copyIntoVpRare session src dst p st).2
  | op _, _ => none

/-- The quads that a write is to insert. -/
def quads : Write → Store → Finset Quad
  | op (.insertTriple _ _ q), _ | op (.insertEncodedTriple _ q), _ => {q}
  | op (.batchInsertEncoded _ p keys), _ => (keys.map (Key.quad · p)).toFinset
  | addGraphIn _ src dst p, st =>
    ((st.graphQuads src).filter fun q => q.p = p).image fun q => q.inGraph dst
  | op _, _ => ∅

end Write

/-- What `install_quota_trigger` is given. -/
structure Tenant where
  graph : TermId
  quotaTriples : Int
  limited : 0 < quotaTriples

namespace Tenant

/-- `SELECT count(*) FROM vp_rare WHERE g = graph_id`. -/
def currentCount (t : Tenant) (st : Store) : Int :=
  (st.rare.rows.filter fun r => r.quad.g = t.graph).length

/-- `AFTER INSERT ON vp_rare FOR EACH ROW`, for a statement between two states. -/
def rejects (t : Tenant) (before after : Store) : Bool :=
  before.rare.rows.length < after.rare.rows.length ∧ t.quotaTriples < t.currentCount after

/-- A write under the trigger. An exception leaves what was drawn from the sequence. -/
def write (t : Tenant) (st : Store) (w : Write) : Except Sequence Store :=
  match w.intoVpRare st with
  | some st' => if t.rejects st st' then .error st'.seq else .ok (w.apply st)
  | none => .ok (w.apply st)

/-- An exception rolls the transaction back, but not the sequence. -/
def transaction (t : Tenant) (st : Store) (ws : List Write) : Store :=
  match ws.foldlM t.write st with
  | .ok st' => st'
  | .error seq => { st with seq := seq }

end Tenant

namespace Store

variable {st st' : Store} {g : TermId} {q : Quad}

@[simp] theorem mem_graphQuads : q ∈ st.graphQuads g ↔ st.Visible q ∧ q.g = g := by
  rw [graphQuads, List.mem_toFinset, List.mem_filter, decide_eq_true_eq, List.mem_append]
  refine and_congr_left fun _ => or_congr ?_ Iff.rfl
  rw [List.mem_flatMap]
  simp only [mem_dedicatedPredicates, HtapTables.Shows, List.mem_map]
  constructor
  · rintro ⟨p, dedicated, r, mem, rfl⟩
    exact ⟨dedicated, r, mem, rfl⟩
  · rintro ⟨dedicated, r, mem, same⟩
    exact ⟨q.p, dedicated, r, mem, by rw [same, Quad.key_quad]⟩

@[simp] theorem mem_rareQuadsIn : q ∈ st.rareQuadsIn g ↔ st.rare.HasKey q ∧ q.g = g := by
  rw [rareQuadsIn, List.mem_toFinset, List.mem_filter, decide_eq_true_eq]
  exact Iff.rfl

theorem rareQuadsIn_subset : st.rareQuadsIn g ⊆ st.graphQuads g := by
  intro q mem
  rw [mem_rareQuadsIn] at mem
  exact mem_graphQuads.mpr ⟨.inr mem.1, mem.2⟩

/-- The rows are counted by their quads, since these are the key of the table. -/
theorem currentCount_eq (t : Tenant) (st : Store) :
    t.currentCount st = (st.rareQuadsIn t.graph).card := by
  have distinct : ((st.rare.rows.map RareRow.quad).filter fun q => q.g = t.graph).Nodup :=
    st.rare.unique.filter _
  rw [rareQuadsIn, List.toFinset_card_of_nodup distinct, List.filter_map, List.length_map]
  rfl

/-- More rows of one graph mean more rows. -/
theorem length_lt_of_rareQuadsIn (kept : ∀ q, st.rare.HasKey q → st'.rare.HasKey q)
    (more : (st.rareQuadsIn g).card < (st'.rareQuadsIn g).card) :
    st.rare.rows.length < st'.rare.rows.length := by
  have inside : st.rare.rows.map RareRow.quad ⊆ st'.rare.rows.map RareRow.quad := kept
  have bound := (List.subperm_of_subset st.rare.unique inside)
  have length (st : Store) : st.rare.rows.length = (st.rare.rows.map RareRow.quad).length :=
    (List.length_map _).symm
  rw [length, length]
  refine Nat.lt_of_le_of_ne bound.length_le fun same => ?_
  have perm := bound.perm_of_length_le same.ge
  have equal : st.rareQuadsIn g = st'.rareQuadsIn g := by
    ext q
    rw [mem_rareQuadsIn, mem_rareQuadsIn]
    exact and_congr_left fun _ => perm.mem_iff
  rw [equal] at more
  exact Nat.lt_irrefl _ more

end Store

/-- A view shows after a merge nothing that it did not show before. -/
theorem HtapTables.shows_of_merged {cfg : Config} {t : HtapTables} {k : Key}
    (shown : (t.merged cfg).Shows k) : t.Shows k := by
  have built : k ∈ (t.buildMain cfg).map Row.key := by
    rw [shows_iff_of_clean fun _ => rfl] at shown
    simpa [merged, InMain, InTombstones, InDelta] using shown
  rw [shows_iff]
  refine (mem_map_buildMain.mp built).imp (fun live => ?_) id
  exact ⟨live.1, fun _ => live.2⟩

namespace Store

section Removing

variable {st : Store} {p g : TermId} {session : Session} {q q' : Quad}

theorem Layout.visible_of_mergePredicate {cfg : Config} (h : st.Layout)
    (shown : (Store.mergePredicate cfg p st).2.Visible q) : st.Visible q := by
  cases h.predicate p with
  | inl used =>
    by_cases same : q.p = p
    · subst same
      have after : (Store.mergePredicate cfg q.p st).2.isDedicated q.p = true :=
        used.mergePredicate.dedicated
      rw [h.mergePredicate.visible_iff_shows after, used.tables_mergePredicate] at shown
      exact .inl ⟨used.dedicated, HtapTables.shows_of_merged shown⟩
    · have rare : (Store.mergePredicate cfg p st).2.rare.HasKey q ↔ st.rare.HasKey q := by
        rw [rare_mergePredicate]
      rwa [onlyAt_mergePredicate.visible_iff same rare] at shown
  | inr unused =>
    rwa [unused.mergePredicate_eq] at shown

theorem Layout.visible_of_deleteQuad (h : st.Layout)
    (shown : (Store.deleteQuad session q st).2.Visible q') : st.Visible q' := by
  by_cases same : q'.p = q.p
  · cases hp : st.isDedicated q.p with
    | true =>
      have used := h.dedicatedAt hp
      have after : (Store.deleteQuad session q st).2.isDedicated q'.p = true :=
        same ▸ used.deleteQuad.dedicated
      rw [h.deleteQuad.visible_iff_shows after, same] at shown
      refine .inl ⟨same ▸ hp, ?_⟩
      rw [same, HtapTables.shows_iff]
      by_cases present : (st.tables q.p).InDelta q.key
      · exact ((shows_deleteQuad_of_inDelta hp present _).mp shown).imp id And.left
      · exact ((used.shows_deleteQuad present _).mp shown).imp
          (fun live => ⟨live.1, fun _ => live.2.1⟩) id
    | false =>
      have correct : DeleteCorrect st q (Store.deleteQuad session q st) :=
        (h.unusedAt hp).deleteCorrect
      by_cases self : q' = q
      · exact absurd (self ▸ shown) correct.gone
      · exact (correct.others q' self).mp shown
  · rwa [visible_deleteQuad_of_ne same] at shown

/-- Removing the rows of a graph uncovers nothing, unless the view changes to its skip form. -/
theorem GraphRemoved.shows_of_shows {t t' : HtapTables} {k : Key} (h : GraphRemoved g t t')
    (view : t.view = .tombstoneAware → t'.view = .tombstoneAware) (shown : t'.Shows k) :
    t.Shows k := by
  rw [HtapTables.shows_iff]
  refine ((h.shows_iff k).mp shown).imp (fun live => ?_) And.left
  exact ⟨live.1, fun aware => (live.2 (view aware)).1⟩

theorem Layout.visible_of_clearGraphById (h : st.Layout)
    (shown : (Store.clearGraphById session g st).2.Visible q) : st.Visible q := by
  refine ((h.visible_clearGraphById q).mp shown).imp (fun table => ⟨table.1, ?_⟩) And.left
  obtain ⟨removed, view⟩ := h.clearGraphById_effect session g table.1
  refine GraphRemoved.shows_of_shows removed (fun aware => ?_) table.2
  rw [view, aware, ite_self]

theorem Layout.visible_of_dropGraph (h : st.Layout)
    (shown : (Store.dropGraph session g st).2.Visible q) : st.Visible q := by
  refine ((h.visible_dropGraph q).mp shown).imp (fun table => ⟨table.1, ?_⟩) And.left
  obtain ⟨removed, view⟩ := h.dropGraph_effect session g table.1
  exact GraphRemoved.shows_of_shows removed (fun aware => view.trans aware) table.2

end Removing

end Store

namespace Write

variable {st st' : Store} {w : Write} {q : Quad}

theorem layout (h : st.Layout) (w : Write) : (w.apply st).Layout := by
  cases w with
  | op o => exact h.apply o
  | addGraphIn session src dst p =>
    show (Store.addGraphIn session src dst (0, st) p).2.Layout
    exact Layout.addGraphIn h

@[simp] theorem mem_quads_insertTriple {cfg : Config} {session : Session} {q' : Quad} :
    q ∈ quads (op (.insertTriple cfg session q')) st ↔ q = q' := Finset.mem_singleton

@[simp] theorem mem_quads_insertEncodedTriple {session : Session} {q' : Quad} :
    q ∈ quads (op (.insertEncodedTriple session q')) st ↔ q = q' := Finset.mem_singleton

theorem mem_quads_batch {session : Session} {p : TermId} {keys : List Key} :
    q ∈ quads (op (.batchInsertEncoded session p keys)) st ↔ q.p = p ∧ q.key ∈ keys := by
  show q ∈ (keys.map (Key.quad · p)).toFinset ↔ _
  rw [List.mem_toFinset, List.mem_map]
  constructor
  · rintro ⟨k, mem, rfl⟩
    exact ⟨rfl, mem⟩
  · rintro ⟨rfl, mem⟩
    exact ⟨q.key, mem, q.key_quad⟩

theorem mem_quads_addGraphIn {session : Session} {src dst p : TermId} :
    q ∈ quads (addGraphIn session src dst p) st ↔
      q.p = p ∧ q.g = dst ∧ st.Visible (q.inGraph src) := by
  have copied : quads (addGraphIn session src dst p) st =
      ((st.graphQuads src).filter fun q => q.p = p).image fun q => q.inGraph dst := rfl
  simp only [copied, Finset.mem_image, Finset.mem_filter, mem_graphQuads]
  constructor
  · rintro ⟨q', ⟨⟨source, rfl⟩, rfl⟩, rfl⟩
    exact ⟨rfl, rfl, source⟩
  · rintro ⟨rfl, rfl, source⟩
    exact ⟨q.inGraph src, ⟨⟨source, rfl⟩, rfl⟩, rfl⟩

theorem visible_addGraphIn {session : Session} {src dst p : TermId} (h : st.Layout) :
    ((addGraphIn session src dst p).apply st).Visible q ↔
      st.Visible q ∨ q ∈ quads (addGraphIn session src dst p) st := by
  rw [mem_quads_addGraphIn]
  show (Store.addGraphIn session src dst (0, st) p).2.Visible q ↔ _
  exact Layout.visible_addGraphIn h

/-- A write with quads to insert shows these and what was visible before. -/
theorem visible_iff (h : st.Layout) (given : (w.quads st).Nonempty) :
    (w.apply st).Visible q ↔ st.Visible q ∨ q ∈ w.quads st := by
  cases w with
  | op o =>
    cases o with
    | insertTriple cfg session q' =>
      rw [mem_quads_insertTriple]
      exact h.visible_insertTriple q
    | insertEncodedTriple session q' =>
      rw [mem_quads_insertEncodedTriple]
      exact h.visible_insertEncodedTriple q
    | batchInsertEncoded session p keys =>
      rw [mem_quads_batch]
      exact h.visible_batchInsertEncoded keys q
    | _ => exact absurd given Finset.not_nonempty_empty
  | addGraphIn session src dst p => exact visible_addGraphIn h

/-- No write shows more than it is given. -/
theorem visible_of_apply (h : st.Layout) (shown : (w.apply st).Visible q) :
    st.Visible q ∨ q ∈ w.quads st := by
  cases w with
  | op o =>
    cases o with
    | insertTriple cfg session q' =>
      rw [mem_quads_insertTriple]
      exact (h.visible_insertTriple q).mp shown
    | insertEncodedTriple session q' =>
      rw [mem_quads_insertEncodedTriple]
      exact (h.visible_insertEncodedTriple q).mp shown
    | batchInsertEncoded session p keys =>
      rw [mem_quads_batch]
      exact (h.visible_batchInsertEncoded keys q).mp shown
    | deleteTriple session q' => exact .inl (h.visible_of_deleteQuad shown)
    | deleteTripleByIds session q' => exact .inl (h.visible_of_deleteQuad shown)
    | promotePredicate p => exact .inl ((h.visible_promotePredicate q).mp shown)
    | mergePredicate cfg p => exact .inl (h.visible_of_mergePredicate shown)
    | clearGraphById session g => exact .inl (h.visible_of_clearGraphById shown)
    | dropGraph session g => exact .inl (h.visible_of_dropGraph shown)
  | addGraphIn session src dst p => exact (visible_addGraphIn h).mp shown

/-- The statement on `vp_rare` adds the quads that are given, and draws from the sequence. -/
theorem intoVpRare_spec (found : w.intoVpRare st = some st') :
    (∀ q, st'.rare.HasKey q ↔ st.rare.HasKey q ∨ q ∈ w.quads st) ∧
      st.seq.lastValue ≤ st'.seq.lastValue := by
  cases w with
  | op o =>
    cases o with
    | insertTriple cfg session q' | insertEncodedTriple session q' =>
      replace found : (if st.isDedicated q'.p then none
        else some (insertIntoVpRare session q' st).2) = some st' := found
      split_ifs at found
      cases found
      refine ⟨fun q => ?_, onlyAt_insertIntoVpRare.seq⟩
      simp only [mem_quads_insertTriple, mem_quads_insertEncodedTriple]
      exact rare_insertIntoVpRare
    | batchInsertEncoded session p keys =>
      replace found : (if keys.isEmpty ∨ st.isDedicated p then none
        else some (batchIntoVpRare session p keys st)) = some st' := found
      split_ifs at found
      cases found
      refine ⟨fun q => ?_, onlyAt_batchIntoVpRare.seq⟩
      rw [mem_quads_batch]
      exact rare_batchIntoVpRare
    | _ => cases found
  | addGraphIn session src dst p =>
    replace found : (if st.isDedicated p then none
      else some (copyIntoVpRare session src dst p st).2) = some st' := found
    split_ifs at found with hp
    cases found
    refine ⟨fun q => rare_copyIntoVpRare.trans (or_congr Iff.rfl ?_), onlyAt_copyIntoVpRare.seq⟩
    rw [mem_quads_addGraphIn]
    refine and_congr_right fun same => and_congr_right fun _ => ?_
    -- without tables of its own, a predicate is visible in `vp_rare` only
    refine ⟨.inr, fun shown => shown.resolve_left fun table => hp ?_⟩
    rw [← same]
    exact table.1

theorem lastValue_le_apply : st.seq.lastValue ≤ (w.apply st).seq.lastValue := by
  cases w with
  | op o => exact Sequence.Later.lastValue_le (later_apply o)
  | addGraphIn session src dst p =>
    have round : OnlyAt p ((0, st) : Int × Store).2
        (Store.addGraphIn session src dst (0, st) p).2 := onlyAt_addGraphIn
    exact round.seq

end Write

namespace Tenant

variable {t : Tenant} {st st' : Store} {w : Write} {ws : List Write}

/-- The visible quads of the graph fit into the quota. -/
def Within (t : Tenant) (st : Store) : Prop :=
  ((st.graphQuads t.graph).card : Int) ≤ t.quotaTriples

/-- A write that leaves the graph within the quota is not rejected. -/
def Admits (t : Tenant) (st : Store) (w : Write) : Prop :=
  t.Within (w.apply st) → ∃ st', t.write st w = .ok st'

/-- The quads that a write is to insert into the graph. -/
def newQuads (t : Tenant) (st : Store) (w : Write) : Finset Quad :=
  (w.quads st).filter fun q => q.g = t.graph

/-- The graph has room for the new quads; or they go to `vp_rare` and have no room there. -/
def Fits (t : Tenant) (st : Store) (w : Write) : Prop :=
  (t.newQuads st w).Nonempty →
    ((st.graphQuads t.graph ∪ t.newQuads st w).card : Int) ≤ t.quotaTriples ∨
      (w.intoVpRare st).isSome ∧
        t.quotaTriples < (st.rareQuadsIn t.graph ∪ t.newQuads st w).card

instance (t : Tenant) (st : Store) (w : Write) : Decidable (t.Fits st w) :=
  inferInstanceAs (Decidable (_ → _ ∨ _ ∧ _))

/-- What is kept by the writes that fit. -/
structure Kept (t : Tenant) (st : Store) : Prop where
  layout : st.Layout
  within : t.Within st

theorem card_le_of_subset {a b : Finset Quad} {n : Int} (sub : a ⊆ b) (le : (b.card : Int) ≤ n) :
    (a.card : Int) ≤ n := Int.le_trans (Int.ofNat_le.mpr (Finset.card_le_card sub)) le

theorem graphQuads_apply (h : st.Layout) (w : Write) :
    (w.apply st).graphQuads t.graph ⊆ st.graphQuads t.graph ∪ t.newQuads st w := by
  intro q mem
  obtain ⟨shown, here⟩ := mem_graphQuads.mp mem
  rw [Finset.mem_union, newQuads, Finset.mem_filter, mem_graphQuads]
  exact (Write.visible_of_apply h shown).imp (fun old => ⟨old, here⟩) fun new => ⟨new, here⟩

theorem rareQuadsIn_intoVpRare (found : w.intoVpRare st = some st') :
    st'.rareQuadsIn t.graph = st.rareQuadsIn t.graph ∪ t.newQuads st w := by
  ext q
  rw [Finset.mem_union, newQuads, Finset.mem_filter, mem_rareQuadsIn, mem_rareQuadsIn,
    (Write.intoVpRare_spec found).1 q, or_and_right]

/-- The trigger lets a write pass if there is room in `vp_rare`. -/
theorem write_of_room (room : ∀ st', w.intoVpRare st = some st' →
    ((st.rareQuadsIn t.graph ∪ t.newQuads st w).card : Int) ≤ t.quotaTriples) :
    t.write st w = .ok (w.apply st) := by
  rw [write]
  cases found : w.intoVpRare st with
  | none => rfl
  | some st' =>
    have less : t.currentCount st' ≤ t.quotaTriples := by
      rw [currentCount_eq, rareQuadsIn_intoVpRare found]
      exact room st' found
    have passes : t.rejects st st' = false := by
      simp [rejects, less]
    simp [passes]

/-- Too many rows in `vp_rare` are rejected. -/
theorem write_of_no_room (within : t.Within st) (found : w.intoVpRare st = some st')
    (full : t.quotaTriples < (st.rareQuadsIn t.graph ∪ t.newQuads st w).card) :
    t.write st w = .error st'.seq := by
  have count : t.quotaTriples < t.currentCount st' := by
    rwa [currentCount_eq, rareQuadsIn_intoVpRare found]
  have before : ((st.rareQuadsIn t.graph).card : Int) ≤ t.quotaTriples :=
    card_le_of_subset rareQuadsIn_subset within
  have more : st.rare.rows.length < st'.rare.rows.length := by
    refine length_lt_of_rareQuadsIn
      (fun q old => ((Write.intoVpRare_spec found).1 q).mpr (.inl old)) (g := t.graph) ?_
    rw [rareQuadsIn_intoVpRare found]
    omega
  have rejected : t.rejects st st' = true := by
    simp [rejects, more, count]
  simp [write, found, rejected]

/-- New quads are visible afterwards, with those of before. -/
theorem subset_graphQuads_apply (h : st.Layout) (given : (t.newQuads st w).Nonempty) :
    st.graphQuads t.graph ∪ t.newQuads st w ⊆ (w.apply st).graphQuads t.graph := by
  intro q mem
  obtain ⟨q', new⟩ := given
  have given' : (w.quads st).Nonempty := ⟨q', (Finset.mem_filter.mp new).1⟩
  rw [mem_graphQuads, Write.visible_iff h given']
  rw [Finset.mem_union, newQuads, Finset.mem_filter, mem_graphQuads] at mem
  exact mem.elim (fun old => ⟨.inl old.1, old.2⟩) fun new => ⟨.inr new.1, new.2⟩

/-- A write that fits keeps the graph within the quota, and is rejected only if it would not. -/
theorem Kept.write (h : t.Kept st) (fits : t.Fits st w) :
    t.Admits st w ∧ ∀ st', t.write st w = .ok st' → t.Kept st' := by
  have room_or : ((st.graphQuads t.graph ∪ t.newQuads st w).card : Int) ≤ t.quotaTriples ∨
      (t.newQuads st w).Nonempty ∧ (w.intoVpRare st).isSome ∧
        t.quotaTriples < (st.rareQuadsIn t.graph ∪ t.newQuads st w).card := by
    obtain none' | given := (t.newQuads st w).eq_empty_or_nonempty
    · left
      rw [none', Finset.union_empty]
      exact h.within
    · exact (fits given).imp_right fun full => ⟨given, full⟩
  obtain room | ⟨given, rare, full⟩ := room_or
  · have passes : t.write st w = .ok (w.apply st) := write_of_room fun _ _ =>
      card_le_of_subset (Finset.union_subset_union_left rareQuadsIn_subset) room
    refine ⟨fun _ => ⟨_, passes⟩, fun st' written => ?_⟩
    rw [passes, Except.ok.injEq] at written
    subst written
    exact ⟨Write.layout h.layout w, card_le_of_subset (graphQuads_apply h.layout w) room⟩
  · obtain ⟨mid, found⟩ := Option.isSome_iff_exists.mp rare
    have rejected := write_of_no_room h.within found full
    refine ⟨fun fitting => ?_, fun st' written => ?_⟩
    · -- what is rejected would all have been visible
      have shown := (Finset.union_subset_union_left rareQuadsIn_subset).trans
        (subset_graphQuads_apply h.layout given)
      exact absurd (card_le_of_subset shown fitting) (Int.not_le.mpr full)
    · rw [rejected] at written
      cases written

/-- A write within a transaction; `none` if it is rejected. -/
def statement (t : Tenant) (st : Store) (w : Write) : Option Store := (t.write st w).toOption

/-- One committed or aborted transaction. -/
def step (t : Tenant) (st : Store) (ws : List Write) : Option Store := some (t.transaction st ws)

theorem statement_eq_some : t.statement st w = some st' ↔ t.write st w = .ok st' := by
  rw [statement]
  cases t.write st w with
  | error seq => simp [Except.toOption]
  | ok mid => simp [Except.toOption]

theorem eq_of_write (written : t.write st w = .ok st') : st' = w.apply st := by
  rw [write] at written
  split at written
  · split at written
    · cases written
    · exact (Except.ok.inj written).symm
  · exact (Except.ok.inj written).symm

theorem lastValue_le_of_error {seq : Sequence} (rejected : t.write st w = .error seq) :
    st.seq.lastValue ≤ seq.lastValue := by
  rw [write] at rejected
  split at rejected
  · rename_i st' found
    split at rejected
    · rw [← Except.error.inj rejected]
      exact (Write.intoVpRare_spec found).2
    · cases rejected
  · cases rejected

/-- An aborted transaction has advanced the sequence at most. -/
theorem lastValue_le_of_abort {seq : Sequence} (aborted : ws.foldlM t.write st = .error seq) :
    st.seq.lastValue ≤ seq.lastValue := by
  induction ws generalizing st with
  | nil => cases aborted
  | cons w ws ih =>
    rw [List.foldlM_cons] at aborted
    cases written : t.write st w with
    | error seq' =>
      rw [written] at aborted
      cases aborted
      exact lastValue_le_of_error written
    | ok mid =>
      rw [written] at aborted
      refine Int.le_trans ?_ (ih aborted)
      rw [eq_of_write written]
      exact Write.lastValue_le_apply

theorem Kept.foldlM (h : t.Kept st) (guarded : Run.Along t.statement t.Fits st ws)
    (committed : ws.foldlM t.write st = .ok st') : t.Kept st' := by
  induction ws generalizing st with
  | nil =>
    cases committed
    exact h
  | cons w ws ih =>
    rw [List.foldlM_cons] at committed
    cases written : t.write st w with
    | error seq =>
      rw [written] at committed
      cases committed
    | ok mid =>
      rw [written] at committed
      exact ih ((h.write guarded.1).2 mid written)
        (guarded.tail (statement_eq_some.mpr written)) committed

/-- A rollback keeps the tables, and the sequence has only advanced. -/
theorem Kept.advance {seq : Sequence} (h : t.Kept st) (le : st.seq.lastValue ≤ seq.lastValue) :
    t.Kept { st with seq := seq } where
  layout := ⟨fun p => (h.layout.predicate p).imp (fun used => used.of_eq rfl rfl le)
    fun unused => ⟨unused.dedicated, unused.htap, unused.tables⟩, h.layout.rare⟩
  within := h.within

theorem Kept.transaction (h : t.Kept st) (guarded : Run.Along t.statement t.Fits st ws) :
    t.Kept (t.transaction st ws) := by
  rw [Tenant.transaction]
  split
  · exact h.foldlM guarded ‹_›
  · exact h.advance (lastValue_le_of_abort ‹_›)

theorem Kept.admits (h : t.Kept st) (guarded : Run.Along t.statement t.Fits st ws) :
    Run.Along t.statement t.Admits st ws :=
  Run.along_of_invariant
    (fun _ _ _ kept fits written => (kept.write fits).2 _ (statement_eq_some.mp written))
    (fun _ _ kept fits => (kept.write fits).1) h guarded

end Tenant

/-- The states that writes lead to from the fresh store, before there is a quota. -/
def Store.Written (st : Store) : Prop :=
  ∃ ws : List Write, ws.foldl (fun st w => w.apply st) Store.initial = st

theorem Store.Written.layout {st : Store} (h : st.Written) : st.Layout := by
  obtain ⟨ws, rfl⟩ := h
  exact List.foldlRecOn ws _ layout_initial fun st kept w _ => Write.layout kept w

/-- If all writes fit, a tenant whose graph was empty at first stays within the quota, and no
write is rejected that keeps it there. -/
theorem tenantQuota_kept (t : Tenant) {st : Store} (written : st.Written)
    (empty : ∀ q : Quad, q.g = t.graph → ¬ st.Visible q) (transactions : List (List Write))
    (guarded : Run.Along t.step (Run.Along t.statement t.Fits) st transactions) :
    Run.Always t.step t.Within st transactions ∧
      Run.Along t.step (Run.Along t.statement t.Admits) st transactions := by
  have none' : st.graphQuads t.graph = ∅ := by
    refine Finset.eq_empty_of_forall_notMem fun q mem => ?_
    obtain ⟨shown, here⟩ := mem_graphQuads.mp mem
    exact empty q here shown
  have start : t.Kept st := by
    refine ⟨written.layout, ?_⟩
    rw [Tenant.Within, none', Finset.card_empty]
    exact Int.le_of_lt t.limited
  have keeps (st : Store) (ws : List Write) (st' : Store) (h : t.Kept st)
      (fits : Run.Along t.statement t.Fits st ws) (done : t.step st ws = some st') :
      t.Kept st' := by
    cases done
    exact h.transaction fits
  exact ⟨Run.always_of_invariant keeps (fun _ h => h.within) start guarded,
    Run.along_of_invariant keeps (fun _ _ h fits => h.admits fits) start guarded⟩

/-- A tenant of the graph `7` with room for one triple. -/
def smallTenant : Tenant := ⟨7, 1, Int.one_pos⟩

def insertOne (o : TermId) : Write := .op (.insertTriple ⟨1000, true, 0⟩ 0 ⟨1, 2, o, 7⟩)

/-- In `vp_rare` the second triple is rejected. -/
theorem tenantQuota_kept_rare :
    Run.Always smallTenant.step smallTenant.Within Store.initial [[insertOne 3], [insertOne 4]] ∧
      Run.Along smallTenant.step (Run.Along smallTenant.statement smallTenant.Admits)
        Store.initial [[insertOne 3], [insertOne 4]] := by
  exact tenantQuota_kept smallTenant ⟨[], rfl⟩ (fun q _ => not_visible_initial q) _ (by decide)

/-- The predicate `2` after a hundred triples of another graph. -/
def promoted : Store :=
  [Write.op (.batchInsertEncoded 0 2 ((List.range 100).map fun n => ⟨n, n, 0⟩)),
    Write.op (.promotePredicate 2)].foldl (fun st w => w.apply st) Store.initial

theorem promoted_dedicated : promoted.isDedicated 2 = true :=
  (dedicatedAt_promotePredicate
    ((layout_initial.batchInsertEncoded).predicate 2)).dedicated

theorem not_visible_promoted {q : Quad} (here : q.g = 7) : ¬ promoted.Visible q := by
  have batch : (Store.batchInsertEncoded 0 2 ((List.range 100).map fun n => ⟨n, n, 0⟩)
      Store.initial).2.Layout := layout_initial.batchInsertEncoded
  intro shown
  obtain old | ⟨-, new⟩ :=
    (layout_initial.visible_batchInsertEncoded _ q).mp ((batch.visible_promotePredicate q).mp shown)
  · exact not_visible_initial q old
  · obtain ⟨n, -, same⟩ := List.mem_map.mp new
    have graph : q.key.g = 7 := here
    rw [← same] at graph
    exact absurd graph (show (0 : Int) ≠ 7 by decide)

/-- Into the tables of a dedicated predicate a tenant can insert what it likes. -/
theorem transaction_insertOne {t : Tenant} {st : Store} {o : TermId}
    (hp : st.isDedicated 2 = true) : t.transaction st [insertOne o] = (insertOne o).apply st ∧
      ((insertOne o).apply st).isDedicated 2 = true := by
  have direct : (insertOne o).apply st = (insertIntoDelta 0 ⟨1, 2, o, 7⟩ st).2 := by
    simp [insertOne, Write.apply, Op.apply, insertTriple, hp]
  refine ⟨?_, by rw [direct, isDedicated_insertIntoDelta, hp]⟩
  simp [Tenant.transaction, Tenant.write, insertOne, Write.intoVpRare, hp]

theorem tenantQuota_exceeded_promoted :
    ¬ ∀ (t : Tenant) (st : Store), st.Written → (∀ q : Quad, q.g = t.graph → ¬ st.Visible q) →
      ∀ transactions : List (List Write), Run.Always t.step t.Within st transactions ∧
        Run.Along t.step (Run.Along t.statement t.Admits) st transactions := by
  intro all
  have always := (all smallTenant promoted ⟨_, rfl⟩ (fun _ => not_visible_promoted)
    [[insertOne 3], [insertOne 4]]).1
  obtain ⟨first, dedicated⟩ := transaction_insertOne (t := smallTenant) (o := 3) promoted_dedicated
  obtain ⟨second, -⟩ := transaction_insertOne (t := smallTenant) (o := 4) dedicated
  have last : smallTenant.Within ((insertOne 4).apply ((insertOne 3).apply promoted)) := by
    rw [← second, ← first]
    exact always.2.2
  have before : promoted.Layout := Written.layout ⟨_, rfl⟩
  have between := Write.layout before (insertOne 3)
  have shown (o : TermId) (q : Quad) {st : Store} (h : st.Layout) :
      ((insertOne o).apply st).Visible q ↔ st.Visible q ∨ q = ⟨1, 2, o, 7⟩ :=
    h.visible_insertTriple q
  have both : ({⟨1, 2, 3, 7⟩, ⟨1, 2, 4, 7⟩} : Finset Quad) ⊆
      ((insertOne 4).apply ((insertOne 3).apply promoted)).graphQuads 7 := by
    intro q mem
    rw [mem_graphQuads, shown 4 q between, shown 3 q before]
    obtain rfl | mem := Finset.mem_insert.mp mem
    · exact ⟨.inl (.inr rfl), rfl⟩
    · rw [Finset.mem_singleton.mp mem]
      exact ⟨.inr rfl, rfl⟩
  exact absurd (Tenant.card_le_of_subset both last) (by decide)

end PgRipple.Storage
