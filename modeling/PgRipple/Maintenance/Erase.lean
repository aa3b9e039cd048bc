import PgRipple.Maintenance.Vacuum
import PgRipple.Storage.Sited
import PgRipple.Storage.TripleCount

/-!
# Erasing a subject

`erase_subject` looks the IRI up, deletes the rows that have it as their subject from `vp_rare`,
from every `delta` and from every `main`, and then deletes the dictionary row of the IRI. It leaves
the counters, the caches and all other references to the IRI as they are.

`ErasesExactly` is what an erasure is for. It has four parts: the subject is gone and stays away,
nobody else is affected, the counters follow, and the IRI can be encoded again. Each part has a
condition of its own on the state in which the erasure starts; `ErasureSafe` lists them.
-/

namespace PgRipple.Maintenance

open Storage Dictionary

/-- The relation that a row of the report is about. -/
inductive ErasedRelation where
  | vpRare
  | delta (p : TermId)
  | main (p : TermId)
  | dictionary
  deriving DecidableEq, Repr

/-- `EraseRow`: a relation and the number of rows deleted from it. -/
abbrev EraseRow := ErasedRelation × Int

/-- `DELETE FROM … WHERE s = $1` on both tables of a predicate. -/
def eraseFrom (id : TermId) (t : HtapTables) : HtapTables :=
  { t with
    delta := t.delta.deleteWhere fun r => r.key.s = id
    main := t.main.filter fun r => r.key.s ≠ id }

/-- One turn of the loop over the dedicated predicates. Tables without such rows are not
reported. -/
def eraseTables (id : TermId) (acc : List EraseRow × Store) (p : TermId) : List EraseRow × Store :=
  let t := acc.2.tables p
  let deltaCnt : Int := (t.delta.rows.filter fun r => r.key.s = id).length
  let mainCnt : Int := (t.main.filter fun r => r.key.s = id).length
  (acc.1 ++ (if 0 < deltaCnt then [(.delta p, deltaCnt)] else []) ++
      (if 0 < mainCnt then [(.main p, mainCnt)] else []),
    acc.2.setTables p (eraseFrom id t))

/-- The rows of `vp_rare`, and those of the dedicated tables. -/
def eraseRows (id : TermId) (st : Store) : List EraseRow × Store :=
  let rareDeleted : Int := (st.rare.rows.filter fun r => r.quad.s = id).length
  let st := { st with rare := st.rare.deleteWhere fun r => r.quad.s = id }
  st.dedicatedPredicates.foldl (eraseTables id) ([(.vpRare, rareDeleted)], st)

namespace System

/-- `erase_subject_impl`, on the tables of the store and the dictionary. -/
def eraseSubject (codec : Codec) (session : Session) (iri : Text) (sys : System) :
    List EraseRow × System :=
  let (found, d) := sys.dict.lookup codec session iri .iri
  match found with
  | none => ([], { sys with dict := d })
  | some id =>
    let (results, st) := eraseRows id sys.store
    let dictCnt : Int := (d.rows.rows.filter fun r => r.id = id).length
    (results ++ [(.dictionary, dictCnt)], ⟨st, d.deleteUnless fun id' => id' ≠ id⟩)

end System

/-- What the background workers do later. -/
inductive Upkeep where
  | mergePredicate (cfg : Config) (p : TermId)
  | promotePredicate (p : TermId)

def Upkeep.apply : Upkeep → Store → Store
  | .mergePredicate cfg p, st => (Store.mergePredicate cfg p st).2
  | .promotePredicate p, st => st.promotePredicate p

namespace System

/-- The hash under which `encode` keeps an IRI. -/
def iriHash (codec : Codec) (iri : Text) : Hash := codec.termHash (Dict.written codec iri .iri) .iri

/-- An id stands for the IRI: in the table, or in the eyes of some backend. -/
def Denotes (codec : Codec) (d : Dict) (iri : Text) (id : TermId) : Prop :=
  d.Stored (iriHash codec iri) id ∨ d.Cached (iriHash codec iri) id

/-- The erasure hits the IRI and nothing else. -/
structure ErasesExactly (codec : Codec) (iri : Text) (sys sys' : System) : Prop where
  gone : ∀ later : List Upkeep, ∀ q,
    (later.foldl (fun st u => u.apply st) sys'.store).Visible q → ¬ Denotes codec sys.dict iri q.s
  others : ∀ q, sys.store.Visible q → ¬ Denotes codec sys.dict iri q.s →
    sys'.store.Visible q ∧
      ∀ id ∈ [q.s, q.p, q.o, q.g], Dict.ReadsSame codec sys.dict sys'.dict id
  counted : ∀ p, sys.store.Counted p → sys'.store.Counted p
  encodes : ∀ session, (sys'.dict.encode codec session iri .iri).2.HasRow
    (sys'.dict.encode codec session iri .iri).1

/-- The id that `lookup_iri` finds, in the backend's own cache or in the table. -/
def knownId (codec : Codec) (session : Session) (iri : Text) (sys : System) : Option TermId :=
  (sys.dict.lookup codec session iri .iri).1

/-- The caches after the look-up. -/
def cachesOf (codec : Codec) (session : Session) (iri : Text) (sys : System)
    (session' : Session) : Tiers :=
  (sys.dict.lookup codec session iri .iri).2.tiers session'

/-- The states in which an erasure does what it is for. -/
structure ErasureSafe (codec : Codec) (session : Session) (iri : Text) (sys : System) : Prop where
  /-- The subjects that stand for the IRI have the id that is found, and no other has it. -/
  subject : ∀ q, sys.store.Visible q →
    (Denotes codec sys.dict iri q.s ↔ sys.knownId codec session iri = some q.s)
  /-- No triple of another subject mentions the IRI, at any depth. -/
  unreferenced : ∀ id, sys.knownId codec session iri = some id → isInline id = false →
    sys.dict.HasRow id → ∀ q, sys.store.Visible q → q.s ≠ id → ∀ t ∈ [q.s, q.p, q.o, q.g],
      ¬ Relation.ReflTransGen sys.dict.Quotes t id
  /-- No triple that goes has been counted right. -/
  uncounted : ∀ q, sys.store.Visible q → sys.knownId codec session iri = some q.s →
    ¬ sys.store.Counted q.p
  /-- No backend would get an id for the IRI from its caches that has no row or is about to lose
  it. -/
  encodable : ∀ session' id, ((sys.cachesOf codec session iri session').lookup
      (iriHash codec iri)).1 = some id →
    sys.dict.HasRow id ∧ sys.knownId codec session iri ≠ some id

end System

variable {st : Store} {id p : TermId} {q : Quad}

theorem shows_eraseFrom {t : HtapTables} {k : Key} :
    (eraseFrom id t).Shows k ↔ t.Shows k ∧ k.s ≠ id := by
  have delta : (eraseFrom id t).InDelta k ↔ t.InDelta k ∧ k.s ≠ id := by
    have deleted := UniqueTable.hasKey_deleteWhere (t := t.delta) (k := k)
      fun k => decide (k.s = id)
    simp only [decide_eq_false_iff_not] at deleted
    exact deleted
  have main : (eraseFrom id t).InMain k ↔ t.InMain k ∧ k.s ≠ id := by
    simp only [HtapTables.InMain, eraseFrom, List.mem_map, List.mem_filter, decide_eq_true_eq]
    constructor
    · rintro ⟨r, ⟨hr, kept⟩, rfl⟩
      exact ⟨⟨r, hr, rfl⟩, kept⟩
    · rintro ⟨⟨r, hr, rfl⟩, kept⟩
      exact ⟨r, ⟨hr, kept⟩, rfl⟩
  have live : (eraseFrom id t).MainVisible k ↔ t.MainVisible k ∧ k.s ≠ id := by
    rw [HtapTables.MainVisible, HtapTables.MainVisible, main, and_right_comm]
    exact Iff.rfl
  rw [HtapTables.shows_iff, HtapTables.shows_iff, live, delta, or_and_right]

theorem shows_eraseTables {acc : List EraseRow × Store} {k : Key} (ps : List TermId) :
    ((ps.foldl (eraseTables id) acc).2.tables p).Shows k ↔
      (acc.2.tables p).Shows k ∧ (p ∈ ps → k.s ≠ id) := by
  induction ps generalizing acc with
  | nil => simp
  | cons x ps ih =>
    have round : ((eraseTables id acc x).2.tables p).Shows k ↔
        (acc.2.tables p).Shows k ∧ (p = x → k.s ≠ id) := by
      by_cases same : p = x
      · subst same
        simp [eraseTables, shows_eraseFrom]
      · simp [eraseTables, Store.setTables_tables_of_ne same, same]
    rw [List.foldl_cons, ih, round, List.mem_cons]
    tauto

theorem predicates_eraseTables {acc : List EraseRow × Store} (ps : List TermId) :
    (ps.foldl (eraseTables id) acc).2.predicates = acc.2.predicates ∧
      (ps.foldl (eraseTables id) acc).2.rare = acc.2.rare := by
  induction ps generalizing acc with
  | nil => exact ⟨rfl, rfl⟩
  | cons x ps ih => exact ih

theorem predicates_eraseRows : (eraseRows id st).2.predicates = st.predicates :=
  (predicates_eraseTables _).1

/-- The rows of the subject go, and no others. -/
@[simp] theorem visible_eraseRows : (eraseRows id st).2.Visible q ↔ st.Visible q ∧ q.s ≠ id := by
  have rare : (eraseRows id st).2.rare.HasKey q ↔ st.rare.HasKey q ∧ q.s ≠ id := by
    have same : (eraseRows id st).2.rare = st.rare.deleteWhere fun r => r.quad.s = id :=
      (predicates_eraseTables _).2
    have deleted := UniqueTable.hasKey_deleteWhere (t := st.rare) (k := q)
      fun q => decide (q.s = id)
    rw [same]
    simpa only [decide_eq_false_iff_not] using deleted
  have dedicated : (eraseRows id st).2.isDedicated q.p = st.isDedicated q.p := by
    rw [Store.isDedicated, predicates_eraseRows]
    rfl
  have shown : ((eraseRows id st).2.tables q.p).Shows q.key ↔
      (st.tables q.p).Shows q.key ∧ (q.p ∈ st.dedicatedPredicates → q.s ≠ id) :=
    shows_eraseTables _
  rw [Store.Visible, Store.Visible, rare, dedicated, shown, Store.mem_dedicatedPredicates]
  tauto

/-- Erasing leaves the tables of each predicate in order. -/
theorem arranged_eraseRows (h : st.Arranged) : (eraseRows id st).2.Arranged := by
  have here (acc : List EraseRow × Store) (p : TermId) (used : acc.2.DedicatedAt p) :
      (eraseTables id acc p).2.DedicatedAt p := used.setTables (fun view => view) fun _ hx => hx
  have deleted : ({ st with rare := st.rare.deleteWhere fun r => r.quad.s = id } :
      Store).Arranged :=
    h.of_eq rfl rfl le_rfl
  have start (results : List EraseRow) : ((results, { st with
      rare := st.rare.deleteWhere fun r => decide (r.quad.s = id) }) :
        List EraseRow × Store).2.Arranged := deleted
  exact (start _).fold (eraseTables id) (fun _ _ => Store.onlyAt_setTables) here

theorem arranged_upkeep (h : st.Arranged) (u : Upkeep) : (u.apply st).Arranged := by
  cases u with
  | mergePredicate cfg p => exact h.mergePredicate cfg p
  | promotePredicate p => exact h.promotePredicate p

/-- Merges and promotions bring nothing back. -/
theorem visible_of_upkeep (h : st.Arranged) (u : Upkeep) (visible : (u.apply st).Visible q) :
    st.Visible q := by
  cases u with
  | promotePredicate p => exact (Store.visible_promotePredicate (h p) q).mp visible
  | mergePredicate cfg p =>
    obtain used | unused := h p
    · by_cases same : q.p = p
      · subst same
        rw [Upkeep.apply, Store.Visible, Store.rare_mergePredicate, used.mergePredicate.dedicated,
          used.tables_mergePredicate] at visible
        rw [Store.Visible, used.dedicated]
        refine visible.imp_left (And.imp_right ?_)
        intro shown
        -- the new main table has the live rows of the old one and those of delta
        have built : q.key ∈ ((st.tables q.p).buildMain cfg).map Storage.Row.key := by
          rw [HtapTables.shows_iff] at shown
          exact shown.elim And.left fun delta => absurd delta (UniqueTable.not_hasKey_empty _)
        rw [HtapTables.shows_iff]
        exact (HtapTables.mem_map_buildMain.mp built).imp_left fun live => ⟨live.1, fun _ => live.2⟩
      · have rare : (Store.mergePredicate cfg p st).2.rare.HasKey q ↔ st.rare.HasKey q := by
          rw [Store.rare_mergePredicate]
        exact (Store.onlyAt_mergePredicate.visible_iff same rare).mp visible
    · rwa [Upkeep.apply, unused.mergePredicate_eq] at visible

theorem visible_of_later {later : List Upkeep} (h : st.Arranged)
    (visible : (later.foldl (fun st u => u.apply st) st).Visible q) : st.Visible q := by
  induction later generalizing st with
  | nil => exact visible
  | cons u later ih => exact visible_of_upkeep h u (ih (arranged_upkeep h u) visible)

section Dictionary

variable {d d' : Dict} {codec : Codec} {session session' : Session} {iri : Text} {hash128 : Hash}
  {info : TermInfo}

theorem rows_lookup {term : Text} {kind : Kind} :
    (d.lookup codec session term kind).2.rows = d.rows := by
  simp only [Dict.lookup]
  split
  · rfl
  · split <;> rfl

/-- Terms are read from the table alone. -/
theorem decodeTo_of_rows (same : d'.rows = d.rows) (depth : Nat) (id : Int) :
    d'.decodeTo codec depth id = d.decodeTo codec depth id := by
  induction depth generalizing id with
  | zero => rfl
  | succ n ih => simp only [Dict.decodeTo, Dict.decodeFull, same, ih]

theorem hasRow_deleteUnless {kept : Int → Bool} :
    (d.deleteUnless kept).HasRow id ↔ d.HasRow id ∧ kept id = true := by
  simp only [Dict.HasRow, Dict.deleteUnless, UniqueTable.mem_deleteWhere, Bool.not_eq_false']
  constructor
  · rintro ⟨r, ⟨hr, keep⟩, rfl⟩
    exact ⟨⟨r, hr, rfl⟩, keep⟩
  · rintro ⟨⟨r, hr, rfl⟩, keep⟩
    exact ⟨r, ⟨hr, keep⟩, rfl⟩

/-- Only an answer of the caches can lack a row. -/
theorem hasRow_encodeTiers_iff :
    (d.encodeTiers session hash128 info).2.HasRow (d.encodeTiers session hash128 info).1 ↔
      ∀ id, ((d.tiers session).lookup hash128).1 = some id → d.HasRow id := by
  rw [Dict.encodeTiers]
  dsimp only
  split
  · rename_i id found
    have same : (d.setTiers session ((d.tiers session).lookup hash128).2).HasRow id ↔
        d.HasRow id := Iff.rfl
    simp only [same, found, Option.some.injEq, forall_eq']
  · rename_i missed
    refine iff_of_true ?_ (by simp [missed])
    simp only [Dict.upsert]
    split
    · rename_i r found
      exact ⟨r, (UniqueTable.find?_eq_some_iff.mp found).1, rfl⟩
    · rename_i absent
      have fresh := UniqueTable.find?_eq_none_iff.mp absent
      exact ⟨_, UniqueTable.mem_insertNew.mpr (.inr ⟨fresh, rfl⟩), rfl⟩

end Dictionary

namespace System

variable {codec : Codec} {session : Session} {iri : Text} {sys : System}

theorem eraseSubject_of_unknown (unknown : sys.knownId codec session iri = none) :
    (sys.eraseSubject codec session iri).2 =
      { sys with dict := (sys.dict.lookup codec session iri .iri).2 } := by
  rw [knownId] at unknown
  simp only [eraseSubject, unknown]

theorem eraseSubject_of_known (known : sys.knownId codec session iri = some id) :
    (sys.eraseSubject codec session iri).2 =
      ⟨(eraseRows id sys.store).2,
        (sys.dict.lookup codec session iri .iri).2.deleteUnless fun id' => id' ≠ id⟩ := by
  rw [knownId] at known
  simp only [eraseSubject, known]

theorem visible_eraseSubject : (sys.eraseSubject codec session iri).2.store.Visible q ↔
    sys.store.Visible q ∧ sys.knownId codec session iri ≠ some q.s := by
  cases known : sys.knownId codec session iri with
  | none =>
    rw [eraseSubject_of_unknown known]
    simp
  | some id =>
    rw [eraseSubject_of_known known, visible_eraseRows, ne_eq (some id), Option.some.injEq, eq_comm]

theorem arranged_eraseSubject (h : sys.store.Arranged) :
    (sys.eraseSubject codec session iri).2.store.Arranged := by
  cases known : sys.knownId codec session iri with
  | none =>
    rw [eraseSubject_of_unknown known]
    exact h
  | some id =>
    rw [eraseSubject_of_known known]
    exact arranged_eraseRows h

theorem hasRow_eraseSubject : (sys.eraseSubject codec session iri).2.dict.HasRow id ↔
    sys.dict.HasRow id ∧ sys.knownId codec session iri ≠ some id := by
  have same : (sys.dict.lookup codec session iri .iri).2.HasRow id ↔ sys.dict.HasRow id := by
    rw [Dict.HasRow, rows_lookup]
    exact Iff.rfl
  cases known : sys.knownId codec session iri with
  | none =>
    rw [eraseSubject_of_unknown known, same]
    simp
  | some id' =>
    rw [eraseSubject_of_known known, hasRow_deleteUnless, same, decide_eq_true_eq,
      ne_eq (some id'), Option.some.injEq, eq_comm]

theorem tiers_eraseSubject (session' : Session) :
    (sys.eraseSubject codec session iri).2.dict.tiers session' =
      sys.cachesOf codec session iri session' := by
  cases known : sys.knownId codec session iri with
  | none =>
    rw [eraseSubject_of_unknown known]
    rfl
  | some id =>
    rw [eraseSubject_of_known known]
    rfl

theorem gone_iff (h : sys.store.Arranged) :
    (∀ later : List Upkeep, ∀ q,
      (later.foldl (fun st u => u.apply st)
        (sys.eraseSubject codec session iri).2.store).Visible q →
        ¬ Denotes codec sys.dict iri q.s) ↔
      ∀ q, sys.store.Visible q → Denotes codec sys.dict iri q.s →
        sys.knownId codec session iri = some q.s := by
  constructor
  · intro gone q visible denotes
    by_contra other
    exact gone [] q (visible_eraseSubject.mpr ⟨visible, other⟩) denotes
  · intro found later q visible denotes
    obtain ⟨before, other⟩ := visible_eraseSubject.mp
      (visible_of_later (arranged_eraseSubject h) visible)
    exact other (found q before denotes)

/-- A term is read as before if it does not mention the row that goes. -/
theorem readsSame_eraseSubject_iff {t : TermId} :
    Dict.ReadsSame codec sys.dict (sys.eraseSubject codec session iri).2.dict t ↔
      ∀ id, sys.knownId codec session iri = some id → isInline id = false → sys.dict.HasRow id →
        ¬ Relation.ReflTransGen sys.dict.Quotes t id := by
  cases known : sys.knownId codec session iri with
  | none =>
    refine iff_of_true ?_ (by simp)
    rw [eraseSubject_of_unknown known]
    intro depth
    exact decodeTo_of_rows rows_lookup depth t
  | some id =>
    have rows : ((sys.dict.lookup codec session iri .iri).2.deleteUnless fun id' => id' ≠ id).rows =
        (sys.dict.deleteUnless fun id' => id' ≠ id).rows := by
      rw [Dict.deleteUnless, Dict.deleteUnless, rows_lookup]
    have reads : Dict.ReadsSame codec sys.dict (sys.eraseSubject codec session iri).2.dict t ↔
        Dict.ReadsSame codec sys.dict (sys.dict.deleteUnless fun id' => id' ≠ id) t := by
      rw [eraseSubject_of_known known]
      refine forall_congr' fun depth => ?_
      rw [decodeTo_of_rows rows]
    rw [reads, Dict.readsSame_iff]
    constructor
    · intro keeps _ same dictionary row reached
      cases same
      exact of_decide_eq_true (keeps id reached dictionary row) rfl
    · intro apart id' reached dictionary row
      refine decide_eq_true ?_
      rintro rfl
      exact apart id' rfl dictionary row reached

theorem counted_eraseSubject_iff {p : TermId} (right : sys.store.Counted p) :
    (sys.eraseSubject codec session iri).2.store.Counted p ↔
      ∀ q, sys.store.Visible q → q.p = p → sys.knownId codec session iri ≠ some q.s := by
  cases known : sys.knownId codec session iri with
  | none =>
    rw [eraseSubject_of_unknown known]
    exact iff_of_true right (by simp)
  | some id =>
    have count : (eraseRows id sys.store).2.tripleCount p = sys.store.tripleCount p := by
      rw [Store.tripleCount, predicates_eraseRows]
      rfl
    have keys : (eraseRows id sys.store).2.visibleKeys p =
        (sys.store.visibleKeys p).filter fun k => k.s ≠ id := by
      ext k
      rw [Finset.mem_filter, Store.mem_visibleKeys, Store.mem_visibleKeys, visible_eraseRows]
      exact Iff.rfl
    rw [eraseSubject_of_known known, Store.counted_iff, count, keys, right.exact_, Nat.cast_inj,
      eq_comm, Finset.card_filter_eq_iff]
    constructor
    · rintro apart q visible rfl same
      cases same
      exact apart q.key (Store.mem_visibleKeys.mpr visible) rfl
    · intro apart k visible same
      exact apart (k.quad p) (Store.mem_visibleKeys.mp visible) rfl (congrArg some same.symm)

theorem encodes_iff :
    (∀ session', ((sys.eraseSubject codec session iri).2.dict.encode codec session' iri
    .iri).2.HasRow
      ((sys.eraseSubject codec session iri).2.dict.encode codec session' iri .iri).1) ↔
      ∀ session' id, ((sys.cachesOf codec session iri session').lookup
          (iriHash codec iri)).1 = some id →
        sys.dict.HasRow id ∧ sys.knownId codec session iri ≠ some id := by
  refine forall_congr' fun session' => ?_
  rw [Dict.encode_eq, Dict.encodeInner, hasRow_encodeTiers_iff, tiers_eraseSubject]
  exact forall_congr' fun id => imp_congr_right fun _ => hasRow_eraseSubject

theorem erasesExactly_eraseSubject_iff (h : sys.store.Arranged) :
    ErasesExactly codec iri sys (sys.eraseSubject codec session iri).2 ↔
      ErasureSafe codec session iri sys := by
  constructor
  · intro exact_
    have found := (gone_iff h).mp exact_.gone
    refine ⟨?_, ?_, ?_, encodes_iff.mp exact_.encodes⟩
    · intro q visible
      refine ⟨found q visible, ?_⟩
      intro known
      by_contra other
      exact (visible_eraseSubject.mp (exact_.others q visible other).1).2 known
    · intro id known dictionary row q visible other t ht
      have foreign : ¬ Denotes codec sys.dict iri q.s := by
        intro denotes
        have same := known.symm.trans (found q visible denotes)
        exact other (Option.some.inj same).symm
      exact readsSame_eraseSubject_iff.mp ((exact_.others q visible foreign).2 t ht) id known
        dictionary row
    · intro q visible known right
      exact (counted_eraseSubject_iff right).mp (exact_.counted q.p right) q visible rfl known
  · intro safe
    refine ⟨(gone_iff h).mpr fun q visible => (safe.subject q visible).mp, ?_, ?_,
      encodes_iff.mpr safe.encodable⟩
    · intro q visible other
      have kept : sys.knownId codec session iri ≠ some q.s :=
        fun known => other ((safe.subject q visible).mpr known)
      refine ⟨visible_eraseSubject.mpr ⟨visible, kept⟩, ?_⟩
      intro t ht
      apply readsSame_eraseSubject_iff.mpr
      intro id known dictionary row
      refine safe.unreferenced id known dictionary row q visible ?_ t ht
      rintro rfl
      exact kept known
    · intro p right
      apply (counted_eraseSubject_iff right).mpr
      rintro q visible rfl known
      exact safe.uncounted q visible known right

end System

/-- What can happen before an erasure, earlier erasures included. -/
inductive ErasureEvent where
  | event (e : Event)
  | eraseSubject (session : Session) (iri : Text)

namespace System

variable {codec : Codec} {session : Session} {iri : Text} {sys sys' : System}

def erasureStep (codec : Codec) (sys : System) : ErasureEvent → Option System
  | .event e => sys.step codec e
  | .eraseSubject session iri => some (sys.eraseSubject codec session iri).2

theorem arranged_constructWriteback {pred : Option TermId} {found : List Quad} {st : Store}
    (h : st.Arranged) : (constructWriteback session pred found st).Arranged := by
  have intoVpRare (quads : List Quad) : (constructIntoVpRare session quads st).Arranged :=
    h.of_eq rfl rfl Sequence.lastValue_le_stamp
  unfold constructWriteback
  split
  · rename_i p
    split
    · rename_i hp
      have drawn : { st with seq := (st.seq.stamp session (found.map Quad.key).eraseDups).2
          }.Arranged :=
        h.of_eq rfl rfl Sequence.lastValue_le_stamp
      exact drawn.of_onlyAt Store.onlyAt_setTables (.inl ((drawn.dedicatedAt hp).setDelta _))
    · exact intoVpRare _
  · exact intoVpRare _

theorem arranged_step {e : Event} (h : sys.store.Arranged)
    (stepped : sys.step codec e = some sys') :
    sys'.store.Arranged := by
  cases e with
  | insertTriple cfg session s p o g =>
    cases stepped
    exact h.insertTriple
  | deleteTriple session s p o g =>
    cases stepped
    exact h.deleteQuad
  | batchInsertEncoded session p keys =>
    cases stepped
    exact h.batchInsertEncoded
  | encode session t =>
    cases stepped
    exact h
  | encodeBatch session terms =>
    obtain ⟨result, -, rfl⟩ := Option.map_eq_some_iff.mp stepped
    exact h
  | lookup session term kind =>
    cases stepped
    exact h
  | runInferenceSeminaive env session rules =>
    obtain ⟨⟨report, st⟩, ran, rfl⟩ := Option.map_eq_some_iff.mp stepped
    rw [Datalog.runInferenceSeminaive] at ran
    split at ran
    · cases ran
      exact h
    · obtain ⟨⟨found, iterations⟩, -, ran⟩ := Option.bind_eq_some_iff.mp ran
      cases ran
      have keeps (acc : Int × Store) (p : TermId) (kept : acc.2.Arranged) :
          (Datalog.materialisePred session found acc p).2.Arranged :=
        kept.of_onlyAt Datalog.onlyAt_materialisePred (Datalog.here_materialisePred (kept p))
      exact Datalog.materialise_invariant keeps h
  | constructWriteback session pred found =>
    cases stepped
    exact arranged_constructWriteback h
  | promotePredicate p =>
    cases stepped
    exact h.promotePredicate p
  | mergePredicate cfg p =>
    cases stepped
    exact h.mergePredicate cfg p
  | vacuumDictionary =>
    cases stepped
    exact h
  | vacuumVpRare =>
    cases stepped
    refine List.foldlRecOn (motive := fun acc : List (TermId × Int) × Store =>
      acc.2.Arranged) _ _ h ?_
    intro acc kept p _
    exact kept.of_eq rfl rfl le_rfl

theorem arranged_of_run {ready : Bool} {dbOid : BitVec 32} {events : List ErasureEvent}
    (executed : Run.exec (erasureStep codec) (.initial ready dbOid) events = some sys) :
    sys.store.Arranged := by
  have keeps (s : System) (e : ErasureEvent) (s' : System) (h : s.store.Arranged) (_ : True)
      (stepped : s.erasureStep codec e = some s') : s'.store.Arranged := by
    cases e with
    | event e => exact arranged_step h stepped
    | eraseSubject session iri =>
      cases stepped
      exact arranged_eraseSubject h
  exact Run.exec_invariant keeps Store.arranged_initial
    (Run.along_of_forall fun _ _ _ => trivial) executed

/-- While every cached id has a row, an IRI without a row has never been seen. -/
theorem not_denotes_of_sound (h : sys.dict.Sound)
    (absent : ¬ sys.dict.rows.HasKey (iriHash codec iri)) (id : TermId) :
    ¬ Denotes codec sys.dict iri id := by
  intro denotes
  have stored : sys.dict.Stored (iriHash codec iri) id := denotes.elim (fun row => row) (h _ _)
  obtain ⟨r, hr, hash, -⟩ := stored
  exact absent (hash ▸ UniqueTable.HasKey.of_mem hr)

/-- What is found stands for the IRI, if the IRI is written as it is kept. -/
theorem denotes_of_knownId (normal : Dict.written codec iri .iri = iri)
    (known : sys.knownId codec session iri = some id) : Denotes codec sys.dict iri id := by
  rw [Denotes, iriHash, normal]
  rw [knownId, Dict.lookup] at known
  dsimp only at known
  split at known
  · rename_i id' found
    cases known
    exact .inr (.inr ⟨session, Cache.mem_of_get_eq_some found⟩)
  · split at known
    · rename_i r found
      cases known
      obtain ⟨hr, hash⟩ := UniqueTable.find?_eq_some_iff.mp found
      exact .inl ⟨r, hr, hash, rfl⟩
    · cases known

/-- An erasure of an IRI that has no row does nothing, which is right. -/
theorem erasureSafe_of_absent (h : sys.dict.Sound) (normal : Dict.written codec iri .iri = iri)
    (absent : ¬ sys.dict.rows.HasKey (iriHash codec iri)) : ErasureSafe codec session iri sys := by
  have never (id : TermId) : ¬ Denotes codec sys.dict iri id := not_denotes_of_sound h absent id
  have unknown (id : TermId) : sys.knownId codec session iri ≠ some id :=
    fun known => never id (denotes_of_knownId normal known)
  refine ⟨fun q _ => iff_of_false (never q.s) (unknown q.s), ?_, ?_, ?_⟩
  · intro id known
    exact absurd known (unknown id)
  · intro q _ known
    exact absurd known (unknown q.s)
  · intro session' id answer
    -- the look-up has left the caches sound
    have sound := (h.lookup codec session iri .iri).sound
    have cached : (sys.dict.lookup codec session iri .iri).2.Cached (iriHash codec iri) id :=
      (Tiers.held_of_lookup answer).imp_right fun own => ⟨session', own⟩
    obtain ⟨r, hr, hash, -⟩ := sound _ id cached
    rw [rows_lookup] at hr
    exact absurd (hash ▸ UniqueTable.HasKey.of_mem hr) absent

end System

/-- In every state that the maintenance histories and earlier erasures lead to, an erasure is exact
under its condition and no other. -/
theorem erasesExactly_iff {codec : Codec} {ready : Bool} {dbOid : BitVec 32}
    {events : List ErasureEvent} {sys : System}
    (executed : Run.exec (System.erasureStep codec) (.initial ready dbOid) events = some sys)
    (session : Session) (iri : Text) :
    System.ErasesExactly codec iri sys (sys.eraseSubject codec session iri).2 ↔
      System.ErasureSafe codec session iri sys :=
  System.erasesExactly_eraseSubject_iff (System.arranged_of_run executed)

/-- Nothing is known about the IRI, and nothing happens. -/
theorem erasesExactly_unknown :
    ∃ sys, Run.exec (System.erasureStep shortTextCodec) (.initial true 5) [
        .event (.insertTriple defaultConfig 0 (.plain ['a'] .iri) ['b'] (.plain ['c'] .iri) none)] =
          some sys ∧
      sys.store.Visible ⟨1, 2, 3, 0⟩ ∧
      System.ErasesExactly shortTextCodec ['d'] sys
        (sys.eraseSubject shortTextCodec 0 ['d']).2 := by
  have ends : (Run.exec (System.erasureStep shortTextCodec) (.initial true 5) [
      .event (.insertTriple defaultConfig 0 (.plain ['a'] .iri) ['b'] (.plain ['c'] .iri)
        none)]).any (fun sys => decide (sys.store.Visible ⟨1, 2, 3, 0⟩) &&
          sys.dict.rows.rows.all fun r => r.hash ≠ System.iriHash shortTextCodec ['d']) = true := by
    decide +kernel
  obtain ⟨sys, executed, final⟩ := (Option.any_eq_true _ _).mp ends
  obtain ⟨visible, unknown⟩ := Bool.and_eq_true_iff.mp final
  have sound : sys.dict.Sound := by
    obtain ⟨mid, stepped, rest⟩ := Option.bind_eq_some_iff.mp executed
    cases rest
    have spared : System.CachesSpared (.initial true 5) (.insertTriple defaultConfig 0
        (.plain ['a'] .iri) ['b'] (.plain ['c'] .iri) none) := trivial
    have start : (System.initial true 5).dict.Sound := Dict.sound_initial true 5
    exact System.sound_step start spared stepped
  have absent : ¬ sys.dict.rows.HasKey (System.iriHash shortTextCodec ['d']) := by
    intro row
    obtain ⟨r, hr, same⟩ := UniqueTable.hasKey_iff.mp row
    exact of_decide_eq_true (List.all_eq_true.mp unknown r hr) same
  exact ⟨sys, executed, of_decide_eq_true visible,
    (erasesExactly_iff executed 0 ['d']).mpr (System.erasureSafe_of_absent sound rfl absent)⟩

/-- After the erasure another backend still takes the id of the IRI from the shared cache. -/
theorem not_erasesExactly :
    ¬ ∀ (codec : Codec) (ready : Bool) (dbOid : BitVec 32) (events : List ErasureEvent)
      (sys : System), Run.exec (System.erasureStep codec) (.initial ready dbOid) events = some sys →
      ∀ (session : Session) (iri : Text),
        System.ErasesExactly codec iri sys (sys.eraseSubject codec session iri).2 := by
  intro promised
  have harmed : (Run.exec (System.erasureStep shortTextCodec) (.initial true 5) [
      .event (.insertTriple defaultConfig 0 (.plain ['a'] .iri) ['b'] (.plain ['c'] .iri)
        none)]).any (fun sys =>
          let encoded := (sys.eraseSubject shortTextCodec 0 ['a']).2.dict.encode shortTextCodec 1
            ['a'] .iri
          encoded.2.rows.rows.all fun r => r.id ≠ encoded.1) = true := by
    decide +kernel
  obtain ⟨sys, executed, final⟩ := (Option.any_eq_true _ _).mp harmed
  have exact_ := promised _ _ _ _ sys executed 0 ['a']
  obtain ⟨r, hr, same⟩ := exact_.encodes 1
  exact of_decide_eq_true (List.all_eq_true.mp final r hr) same

end PgRipple.Maintenance
