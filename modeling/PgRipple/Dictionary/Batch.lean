import PgRipple.Dictionary.Rows

/-!
# Batches and single terms

`encode_batch` has a way of its own through caches, JSON and SQL. It agrees with `encode`, pair
by pair, if the terms that the caches do not know fit into JSON and have hashes that survive
being taken apart, and if none of the terms is one that `encode` would normalise.

New rows are numbered differently: a batch draws an id for every miss, repetitions included, and
single calls do so once per term. Agreement is therefore stated twice. After the batch, single
calls return the very ids of the batch; and single calls from the state before the batch would
have found or made the same rows.
-/

namespace PgRipple.Dictionary.Dict

/-- Encode terms one by one. -/
def encodeEach (codec : Codec) (session : Session) : List (Text × Kind) → Dict → List Int × Dict
  | [], d => ([], d)
  | (term, kind) :: rest, d =>
      let (id, d) := d.encode codec session term kind
      let (ids, d) := encodeEach codec session rest d
      (id :: ids, d)

/-- Rows are numbered by a sequence that starts at `1`. -/
structure Numbered (d : Dict) : Prop where
  unique : ∀ r ∈ d.rows.rows, ∀ r' ∈ d.rows.rows, r.id = r'.id → r = r'
  below : ∀ r ∈ d.rows.rows, 0 < r.id ∧ r.id < d.nextId
  next : 0 < d.nextId

variable {d d' : Dict} {codec : Codec} {session : Session} {hash128 other : Hash} {id id' : Int}
  {info : TermInfo} {terms : List (Text × Kind)} {ids : List Int}

theorem numbered_initial (ready : Bool) (dbOid : BitVec 32) : (initial ready dbOid).Numbered where
  unique _ hr := absurd hr List.not_mem_nil
  below _ hr := absurd hr List.not_mem_nil
  next := Int.one_pos

theorem Numbered.setTiers (h : d.Numbered) (session : Session) (t : Tiers) :
    (d.setTiers session t).Numbered := ⟨h.unique, h.below, h.next⟩

theorem Numbered.upsert (h : d.Numbered) (hash128 : Hash) (info : TermInfo) :
    (d.upsert hash128 info).2.Numbered := by
  have next : 0 < d.nextId + 1 := by
    have := h.next
    omega
  have older : ∀ r ∈ d.rows.rows, 0 < r.id ∧ r.id < d.nextId + 1 := by
    intro r hr
    have := h.below r hr
    omega
  rw [Dict.upsert]
  dsimp only
  split
  · exact ⟨h.unique, older, next⟩
  · refine ⟨?_, ?_, next⟩
    · intro r hr r' hr' same
      obtain old | ⟨-, rfl⟩ := UniqueTable.mem_insertNew.mp hr
      · obtain old' | ⟨-, rfl⟩ := UniqueTable.mem_insertNew.mp hr'
        · exact h.unique r old r' old' same
        · have bound := (h.below r old).2
          have drawn : r.id = d.nextId := same
          omega
      · obtain old' | ⟨-, rfl⟩ := UniqueTable.mem_insertNew.mp hr'
        · have bound := (h.below r' old').2
          have drawn : d.nextId = r'.id := same
          omega
        · rfl
    · intro r hr
      obtain old | ⟨-, rfl⟩ := UniqueTable.mem_insertNew.mp hr
      · exact older r old
      · have drawn := h.next
        show 0 < d.nextId ∧ d.nextId < d.nextId + 1
        omega

theorem Numbered.encodeTiers (h : d.Numbered) (session : Session) (hash128 : Hash)
    (info : TermInfo) : (d.encodeTiers session hash128 info).2.Numbered := by
  rw [Dict.encodeTiers]
  dsimp only
  split
  · exact h.setTiers session _
  · exact ((h.setTiers session _).upsert hash128 info).setTiers session _

theorem Numbered.encode (h : d.Numbered) (codec : Codec) (session : Session) (term : Text)
    (kind : Kind) : (d.encode codec session term kind).2.Numbered := by
  rw [encode_eq]
  exact h.encodeTiers session _ _

theorem Numbered.encodeRdfTerm (h : d.Numbered) (codec : Codec) (session : Session)
    (t : RdfTerm) : (d.encodeRdfTerm codec session t).2.Numbered := by
  induction t generalizing d with
  | plain term kind => exact h.encode codec session term kind
  | typed value datatype =>
    simp only [Dict.encodeRdfTerm, encodeTypedLiteral]
    split
    · exact h
    · exact h.encodeTiers session _ _
  | lang value lang => exact h.encodeTiers session _ _
  | quoted s p o subject predicate object =>
    exact (object (predicate (subject h))).encodeTiers session _ _

theorem Numbered.encodeEach (h : d.Numbered) (codec : Codec) (session : Session)
    (terms : List (Text × Kind)) : (d.encodeEach codec session terms).2.Numbered := by
  induction terms generalizing d with
  | nil => exact h
  | cons t rest ih => exact ih (h.encode codec session t.1 t.2)

theorem Numbered.lookupAll (h : d.Numbered) (codec : Codec) (session : Session)
    (terms : List (Text × Kind)) : (d.lookupAll codec session terms).2.Numbered := by
  induction terms generalizing d with
  | nil => exact h
  | cons t rest ih => exact ih (h.setTiers session _)

theorem Numbered.upsertAll (h : d.Numbered) (codec : Codec) (terms : List (Text × Kind)) :
    (d.upsertAll codec terms).2.Numbered := by
  induction terms generalizing d with
  | nil => exact h
  | cons t rest ih => exact ih (h.upsert _ _)

theorem Numbered.publishAll (h : d.Numbered) (session : Session) (entries : List (Hash × Int)) :
    (entries.foldl (fun d x => d.publish session x.1 x.2) d).Numbered := by
  induction entries generalizing d with
  | nil => exact h
  | cons x rest ih => exact ih (h.setTiers session _)

theorem Numbered.encodeBatch (h : d.Numbered)
    (done : d.encodeBatch codec session terms = some (ids, d')) : d'.Numbered := by
  obtain ⟨known, -, -, -, rfl⟩ := encodeBatch_eq_some done
  exact ((h.lookupAll codec session terms).upsertAll codec _).publishAll session known

theorem Stored.id_unique (row : d.Stored hash128 id) (row' : d.Stored hash128 id') : id = id' := by
  obtain ⟨r, hr, hash, rfl⟩ := row
  obtain ⟨r', hr', hash', rfl⟩ := row'
  exact congrArg TermRow.id (d.rows.eq_of_key_eq hr hr' (hash.trans hash'.symm))

theorem Numbered.hash_unique (h : d.Numbered) (row : d.Stored hash128 id)
    (row' : d.Stored other id) : hash128 = other := by
  obtain ⟨r, hr, rfl, named⟩ := row
  obtain ⟨r', hr', rfl, named'⟩ := row'
  exact congrArg TermRow.hash (h.unique r hr r' hr' (named.trans named'.symm))

theorem Sound.encodeEach (h : d.Sound) (codec : Codec) (session : Session)
    (terms : List (Text × Kind)) :
    Extends d (d.encodeEach codec session terms).2 ∧
      List.Forall₂ (fun t id => (d.encodeEach codec session terms).2.Stored
        (codec.termHash (written codec t.1 t.2) t.2) id) terms
        (d.encodeEach codec session terms).1 := by
  induction terms generalizing d with
  | nil => exact ⟨.refl h, .nil⟩
  | cons t rest ih =>
    obtain ⟨extended, row⟩ := h.encode codec session t.1 t.2
    obtain ⟨later, rows⟩ := ih extended.sound
    exact ⟨extended.trans later, .cons (later.stored row) rows⟩

/-- Two ids stand for rows of one term, in two states that grew from a common one; and if the
row is older, the ids are the same. -/
def SameRow (d d₁ d₂ : Dict) (i j : Int) : Prop :=
  ∃ hash128, d₁.Stored hash128 i ∧ d₂.Stored hash128 j ∧
    ∀ id, d.Stored hash128 id → i = id ∧ j = id

/-- The batch succeeds, with the ids that single calls return. -/
def BatchAgrees (codec : Codec) (session : Session) (terms : List (Text × Kind))
    (d : Dict) : Prop :=
  ∃ ids d', d.encodeBatch codec session terms = some (ids, d') ∧
    (∀ session', (d'.encodeEach codec session' terms).1 = ids) ∧
    List.Forall₂ (SameRow d d' (d.encodeEach codec session terms).2) ids
      (d.encodeEach codec session terms).1

/-- `encode` and `encode_batch` take the term for the same one. -/
def KeepsHash (codec : Codec) (t : Text × Kind) : Prop :=
  codec.termHash (written codec t.1 t.2) t.2 = codec.termHash t.1 t.2

/-- When a batch agrees with single calls. -/
theorem batchAgrees_iff (sound : d.Sound) (numbered : d.Numbered) :
    BatchAgrees codec session terms d ↔
      (∀ t ∈ d.misses codec session terms,
        jsonText t.1 = true ∧ Reassembles (codec.termHash t.1 t.2)) ∧
      ∀ t ∈ terms, KeepsHash codec t := by
  constructor
  · rintro ⟨ids, d', done, same, -⟩
    have succeeds : (d.encodeBatch codec session terms).isSome := by
      rw [done]
      rfl
    refine ⟨encodeBatch_isSome_iff.mp succeeds, ?_⟩
    obtain ⟨extended, batch⟩ := sound.encodeBatch done
    obtain ⟨later, single⟩ := extended.sound.encodeEach codec session terms
    have unique := (numbered.encodeBatch done).encodeEach codec session terms
    rw [same session] at single
    -- an id of the batch stands for both hashes of its pair
    have both := Fold.forall₂_and batch single
    intro t ht
    obtain ⟨id, -, row, row'⟩ := Fold.exists_right_of_forall₂ both ht
    exact unique.hash_unique row' (later.stored row)
  · rintro ⟨fits, keeps⟩
    obtain ⟨⟨ids, d'⟩, done⟩ := Option.isSome_iff_exists.mp (encodeBatch_isSome_iff.mpr fits)
    obtain ⟨extended, batch⟩ := sound.encodeBatch done
    refine ⟨ids, d', done, ?_, ?_⟩
    · intro session'
      obtain ⟨later, single⟩ := extended.sound.encodeEach codec session' terms
      have pairwise : List.Forall₂ (· = ·) (d'.encodeEach codec session' terms).1 ids := by
        refine (Fold.forall₂_of_forall₂ single batch).imp ?_
        rintro i j ⟨t, ht, row, row'⟩
        rw [keeps t ht] at row
        exact row.id_unique (later.stored row')
      rwa [List.forall₂_eq_eq_eq] at pairwise
    · obtain ⟨later, single⟩ := sound.encodeEach codec session terms
      refine (Fold.forall₂_of_forall₂ batch single).imp ?_
      rintro i j ⟨t, ht, row, row'⟩
      rw [keeps t ht] at row'
      refine ⟨_, row, row', ?_⟩
      intro id old
      exact ⟨row.id_unique (extended.stored old), row'.id_unique (later.stored old)⟩

/-- A codec for terms of a few letters; the literal `b` has the hash that XXH3 computes for it. -/
def letterCodec : Codec where
  chrono := Encoder.numericChrono
  termHash term kind :=
    if term = ['b'] ∧ kind = .literal then 0xeda2f3f8607ac7a4d63c414773fb453b#128
    else .ofNat 128 (term.foldl (fun n c => n * 256 + c.toNat) (if kind = .iri then 1 else 2))
  quotedTripleHash s p o :=
    .ofNat 128 (((3 * 2 ^ 32 + s.toNat) * 2 ^ 32 + p.toNat) * 2 ^ 32 + o.toNat)
  normalize term := term

theorem batchAgrees_repeated :
    BatchAgrees letterCodec 0 [(['a'], .iri), (['c'], .literal), (['a'], .iri)]
      (initial true 5) := by
  refine (batchAgrees_iff (sound_initial true 5) (numbered_initial true 5)).mpr ⟨?_, ?_⟩
  · decide +kernel
  · intro t _
    have unchanged : written letterCodec t.1 t.2 = t.1 := ite_self t.1
    exact congrArg (fun term => letterCodec.termHash term t.2) unchanged

/-- The statement stores the literal `b`, and the batch does not find it. -/
theorem not_batchAgrees :
    ¬ ∀ (codec : Codec) (session : Session) (terms : List (Text × Kind)) (d : Dict),
      d.Sound → d.Numbered → BatchAgrees codec session terms d := by
  intro promised
  obtain ⟨ids, d', done, -⟩ := promised letterCodec 0 [(['b'], .literal)] (initial true 5)
    (sound_initial true 5) (numbered_initial true 5)
  have refused : ((initial true 5).encodeBatch letterCodec 0 [(['b'], .literal)]).isNone := by
    decide
  rw [done] at refused
  cases refused

end PgRipple.Dictionary.Dict
