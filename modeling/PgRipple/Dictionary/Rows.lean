import PgRipple.Dictionary.SharedCache
import PgRipple.Dictionary.TypedLiteral
import PgRipple.Lib.Fold
import PgRipple.Storage.Sequence

/-!
# The dictionary table

Every term that is not inlined has a row, found by the 128-bit hash of its text, or, for
a quoted triple, of the ids of its components. The caches of all backends are part of
the state: an answer of a cache is never checked against the table.

Transactions are left to `Transactions`; here every statement is committed at once.
-/

namespace PgRipple.Dictionary

structure TermInfo where
  value : Text
  kind : Kind
  datatype : Option Text
  lang : Option Text
  quotedTriple : Option (Int × Int × Int)
  deriving DecidableEq

/-- A row of `_pg_ripple.dictionary`. -/
structure TermRow where
  hash : Hash
  id : Int
  info : TermInfo
  deriving DecidableEq

/-- What the dictionary takes from other libraries. -/
structure Codec where
  chrono : Chrono
  termHash : Text → Kind → Hash
  quotedTripleHash : Int → Int → Int → Hash
  /-- NFC if `pg_ripple.normalize_iris` is on; otherwise the text itself. -/
  normalize : Text → Text

/-- A term as `encode_rdf_term` reads it. -/
inductive RdfTerm
  /-- An IRI, a blank node or a plain literal. -/
  | plain (term : Text) (kind : Kind)
  | typed (value datatype : Text)
  | lang (value lang : Text)
  | quoted (s p o : RdfTerm)
  deriving DecidableEq

/-- The terms that need no row, with their ids. -/
def RdfTerm.Inlined (codec : Codec) : RdfTerm → Int → Prop
  | .typed value datatype, id => tryEncodeInline codec.chrono value datatype = some id
  | _, _ => False

/-- The table and the caches: one shared, and one for each backend. -/
structure Dict where
  rows : UniqueTable TermRow.hash
  nextId : Int
  shared : SharedCache
  encodeCaches : Session → List (Hash × Int)

namespace Dict

def initial (ready : Bool) (dbOid : BitVec 32) : Dict where
  rows := .empty TermRow.hash
  nextId := 1
  shared := .initial ready dbOid
  encodeCaches := fun _ => []

def decodeFull (d : Dict) (id : Int) : Option TermInfo :=
  (d.rows.rows.find? fun r => r.id = id).map TermRow.info

def formatNtriples (codec : Codec) (d : Dict) (id : Int) : Text :=
  if isInline id then formatInline codec.chrono id
  else
    match d.decodeFull id with
    | none => "<unknown:".toList ++ (toString id).toList ++ ">".toList
    | some t => formatNtriplesTerm t.value t.kind t.datatype t.lang id

/-- The caches as a backend sees them. -/
def tiers (d : Dict) (session : Session) : Tiers := ⟨d.shared, d.encodeCaches session⟩

def setTiers (d : Dict) (session : Session) (t : Tiers) : Dict :=
  { d with
    shared := t.shared
    encodeCaches := Function.update d.encodeCaches session t.encodeCache }

def publish (d : Dict) (session : Session) (hash128 : Hash) (id : Int) : Dict :=
  d.setTiers session ((d.tiers session).publish hash128 id)

/-- `INSERT … ON CONFLICT DO NOTHING`, and the id of the row that is there afterwards.
The id is drawn in either case. -/
def upsert (d : Dict) (hash128 : Hash) (info : TermInfo) : Int × Dict :=
  let drawn := d.nextId
  let d := { d with nextId := d.nextId + 1 }
  match d.rows.find? hash128 with
  | some r => (r.id, d)
  | none => (drawn, { d with rows := d.rows.insertNew ⟨hash128, drawn, info⟩ })

/-- The three tiers, which all encoders go through. -/
def encodeTiers (session : Session) (hash128 : Hash) (info : TermInfo) (d : Dict) : Int × Dict :=
  let (found, t) := (d.tiers session).lookup hash128
  let d := d.setTiers session t
  match found with
  | some id => (id, d)
  | none =>
    let (id, d) := d.upsert hash128 info
    (id, d.publish session hash128 id)

def encodeInner (codec : Codec) (session : Session) (term : Text) (kind : Kind) (d : Dict) :
    Int × Dict :=
  d.encodeTiers session (codec.termHash term kind) ⟨term, kind, none, none, none⟩

def encode (codec : Codec) (session : Session) (term : Text) (kind : Kind) (d : Dict) :
    Int × Dict :=
  if kind = .iri ∨ kind = .blank then d.encodeInner codec session (codec.normalize term) kind
  else d.encodeInner codec session term kind

/-- The text that `encode` hashes. -/
def written (codec : Codec) (term : Text) (kind : Kind) : Text :=
  if kind = .iri ∨ kind = .blank then codec.normalize term else term

theorem encode_eq {codec : Codec} {session : Session} {term : Text} {kind : Kind} {d : Dict} :
    d.encode codec session term kind = d.encodeInner codec session (written codec term kind)
      kind := by
  rw [encode, written]
  split <;> rfl

def encodeTypedLiteral (codec : Codec) (session : Session) (value datatype : Text) (d : Dict) :
    Int × Dict :=
  match tryEncodeInline codec.chrono value datatype with
  | some id => (id, d)
  | none =>
    d.encodeTiers session (codec.termHash (writeTyped value datatype) .typedLiteral)
      ⟨value, .typedLiteral, some datatype, none, none⟩

def encodeLangLiteral (codec : Codec) (session : Session) (value lang : Text) (d : Dict) :
    Int × Dict :=
  d.encodeTiers session (codec.termHash ('"' :: value ++ "\"@".toList ++ lang) .langLiteral)
    ⟨value, .langLiteral, none, some lang, none⟩

/-- The `value` of a quoted triple is the text of its components at this moment. -/
def encodeQuotedTriple (codec : Codec) (session : Session) (s p o : Int) (d : Dict) : Int × Dict :=
  let canonical := "<< ".toList ++ d.formatNtriples codec s ++ " ".toList ++
    d.formatNtriples codec p ++ " ".toList ++ d.formatNtriples codec o ++ " >>".toList
  d.encodeTiers session (codec.quotedTripleHash s p o)
    ⟨canonical, .quotedTriple, none, none, some (s, p, o)⟩

def encodeRdfTerm (codec : Codec) (session : Session) : RdfTerm → Dict → Int × Dict
  | .plain term kind, d => d.encode codec session term kind
  | .typed value datatype, d => d.encodeTypedLiteral codec session value datatype
  | .lang value lang, d => d.encodeLangLiteral codec session value lang
  | .quoted s p o, d =>
    let (sId, d) := encodeRdfTerm codec session s d
    let (pId, d) := encodeRdfTerm codec session p d
    let (oId, d) := encodeRdfTerm codec session o d
    d.encodeQuotedTriple codec session sId pId oId

/-- The first step of `encode_batch`: what the caches know. -/
def lookupAll (codec : Codec) (session : Session) : List (Text × Kind) → Dict →
    List ((Text × Kind) × Option Int) × Dict
  | [], d => ([], d)
  | (term, kind) :: rest, d =>
    let (found, t) := (d.tiers session).lookup (codec.termHash term kind)
    let (others, d) := lookupAll codec session rest (d.setTiers session t)
    (((term, kind), found) :: others, d)

/-- The single statement for all misses. -/
def upsertAll (codec : Codec) : List (Text × Kind) → Dict → List (Hash × Int) × Dict
  | [], d => ([], d)
  | (term, kind) :: rest, d =>
    let (id, d) := d.upsert (codec.termHash term kind) ⟨term, kind, none, none, none⟩
    let (others, d) := upsertAll codec rest d
    ((codec.termHash term kind, id) :: others, d)

/-- JSON has no `U+0000`. -/
def jsonText (term : Text) : Bool := term.all fun c => c.toNat ≠ 0

/-- `hash_to_id`: the rows of the statement under their reassembled hashes, where a later row
replaces an earlier one. -/
def hashToId (stored : List (Hash × Int)) : List (Hash × Int) :=
  stored.reverse.map fun x => (reassemble (hashHi x.1) (hashLo x.1), x.2)

/-- `encode_batch`: ids in the order of the terms. The misses travel to the statement as JSON,
and each is then looked for under its own hash; `none` stands for an error. -/
def encodeBatch (codec : Codec) (session : Session) (terms : List (Text × Kind)) (d : Dict) :
    Option (List Int × Dict) :=
  let (found, d) := d.lookupAll codec session terms
  let misses := (found.filter fun x => x.2.isNone).map Prod.fst
  if misses.all fun t => jsonText t.1 then
    let (stored, d) := d.upsertAll codec misses
    let answer := fun t : Text × Kind => (hashToId stored).lookup (codec.termHash t.1 t.2)
    do
      let known ← misses.mapM fun t => (answer t).map fun id => (codec.termHash t.1 t.2, id)
      let d := known.foldl (fun d x => d.publish session x.1 x.2) d
      let ids ← found.mapM fun x => x.2.or (answer x.1)
      return (ids, d)
  else none

/-- `lookup`, which does not consult the shared cache: an id only if there is one. -/
def lookup (codec : Codec) (session : Session) (term : Text) (kind : Kind) (d : Dict) :
    Option Int × Dict :=
  let hash128 := codec.termHash term kind
  let (found, cache) := Cache.get hash128 (d.encodeCaches session)
  let d := d.setTiers session ⟨d.shared, cache⟩
  match found with
  | some id => (some id, d)
  | none =>
    match d.rows.find? hash128 with
    | some r =>
      (some r.id, d.setTiers session
        ⟨d.shared, Cache.put cacheCapacity hash128 r.id (d.encodeCaches session)⟩)
    | none => (none, d)

/-- A term as read from the table, quoted triples to a given depth. -/
inductive Decoded
  | cut
  | inline (text : Text)
  | missing
  | term (info : TermInfo)
  | quoted (info : TermInfo) (s p o : Decoded)
  deriving DecidableEq

/-- `decode_full`, and for a quoted triple the same for its components. -/
def decodeTo (codec : Codec) (d : Dict) : (depth : Nat) → Int → Decoded
  | 0, _ => .cut
  | n + 1, id =>
    if isInline id then .inline (formatInline codec.chrono id)
    else
      match d.decodeFull id with
      | none => .missing
      | some info =>
        match info.quotedTriple with
        | none => .term info
        | some (s, p, o) =>
          .quoted info (d.decodeTo codec n s) (d.decodeTo codec n p) (d.decodeTo codec n o)

/-- One id is a component of the quoted triple with the other. -/
def Quotes (d : Dict) (id component : Int) : Prop :=
  isInline id = false ∧ ∃ info s p o, d.decodeFull id = some info ∧
    info.quotedTriple = some (s, p, o) ∧ (component = s ∨ component = p ∨ component = o)

/-- An id has a row. -/
def HasRow (d : Dict) (id : Int) : Prop := ∃ r ∈ d.rows.rows, r.id = id

/-- A cache, of any backend, would answer with this id. -/
def Cached (d : Dict) (hash128 : Hash) (id : Int) : Prop :=
  d.shared.Holds hash128 id ∨ ∃ session, (hash128, id) ∈ d.encodeCaches session

/-- There is a row with this hash and this id. -/
def Stored (d : Dict) (hash128 : Hash) (id : Int) : Prop :=
  ∃ r ∈ d.rows.rows, r.hash = hash128 ∧ r.id = id

/-- Whatever a cache answers is in the table. -/
def Sound (d : Dict) : Prop := ∀ hash128 id, d.Cached hash128 id → d.Stored hash128 id

/-- Rows are only added, and the caches are sound afterwards. -/
structure Extends (d d' : Dict) : Prop where
  sound : d'.Sound
  rows : ∀ r ∈ d.rows.rows, r ∈ d'.rows.rows

variable {d d' d'' : Dict} {session : Session} {hash128 other : Hash} {id : Int} {info : TermInfo}
  {codec : Codec}

theorem Stored.hasRow (h : d.Stored hash128 id) : d.HasRow id := by
  obtain ⟨r, hr, -, named⟩ := h
  exact ⟨r, hr, named⟩

theorem Extends.refl (h : d.Sound) : Extends d d := ⟨h, fun _ hr => hr⟩

theorem Extends.trans (h : Extends d d') (h' : Extends d' d'') : Extends d d'' :=
  ⟨h'.sound, fun r hr => h'.rows r (h.rows r hr)⟩

theorem Extends.stored (h : Extends d d') (row : d.Stored hash128 id) : d'.Stored hash128 id := by
  obtain ⟨r, hr, named⟩ := row
  exact ⟨r, h.rows r hr, named⟩

theorem mem_encodeCaches_setTiers {t : Tiers} {session' : Session} {e : Hash × Int}
    (h : e ∈ (d.setTiers session t).encodeCaches session') :
    e ∈ t.encodeCache ∨ e ∈ d.encodeCaches session' := by
  by_cases same : session' = session
  · subst same
    simp only [setTiers, Function.update_self] at h
    exact .inl h
  · simp only [setTiers, Function.update_of_ne same] at h
    exact .inr h

/-- New cache contents are sound if each entry has a row. -/
theorem Sound.setTiers {t : Tiers} (h : d.Sound)
    (shared : ∀ hash128 id, t.shared.Holds hash128 id → d.Stored hash128 id)
    (own : ∀ e ∈ t.encodeCache, d.Stored e.1 e.2) : Extends d (d.setTiers session t) := by
  refine ⟨?_, fun _ hr => hr⟩
  intro hash128 id cached
  cases cached with
  | inl held => exact shared hash128 id held
  | inr found =>
    obtain ⟨session', found⟩ := found
    cases mem_encodeCaches_setTiers found with
    | inl new => exact own _ new
    | inr old => exact h hash128 id (.inr ⟨session', old⟩)

theorem sound_initial (ready : Bool) (dbOid : BitVec 32) : (initial ready dbOid).Sound := by
  intro hash128 id cached
  cases cached with
  | inl held => exact absurd held SharedCache.not_holds_initial
  | inr found =>
    obtain ⟨_, found⟩ := found
    cases found

theorem Sound.lookupTiers (h : d.Sound) (session : Session) (hash128 : Hash) :
    Extends d (d.setTiers session ((d.tiers session).lookup hash128).2) ∧
      ∀ id, ((d.tiers session).lookup hash128).1 = some id → d.Stored hash128 id := by
  constructor
  · refine h.setTiers ?_ ?_
    · intro other id held
      rw [Tiers.shared_lookup] at held
      exact h other id (.inl (SharedCache.holds_lookup held))
    · intro e he
      cases Tiers.mem_lookup he with
      | inl old => exact h e.1 e.2 (.inr ⟨session, old⟩)
      | inr copied =>
        rw [copied.1]
        exact h hash128 e.2 (.inl copied.2)
  · intro id found
    cases Tiers.held_of_lookup found with
    | inl held => exact h hash128 id (.inl held)
    | inr own => exact h hash128 id (.inr ⟨session, own⟩)

theorem Sound.publish (h : d.Sound) (session : Session) (row : d.Stored hash128 id) :
    Extends d (d.publish session hash128 id) := by
  refine h.setTiers ?_ ?_
  · intro other id' held
    cases SharedCache.holds_insert held with
    | inl old => exact h other id' (.inl old)
    | inr new =>
      obtain ⟨rfl, rfl⟩ := new
      exact row
  · intro e he
    cases Cache.mem_put he with
    | inl new =>
      rw [new]
      exact row
    | inr old => exact h e.1 e.2 (.inr ⟨session, old⟩)

theorem Sound.upsert (h : d.Sound) (hash128 : Hash) (info : TermInfo) :
    Extends d (d.upsert hash128 info).2 ∧
      (d.upsert hash128 info).2.Stored hash128 (d.upsert hash128 info).1 := by
  rw [Dict.upsert]
  dsimp only
  split
  · rename_i r found
    obtain ⟨hr, named⟩ := UniqueTable.find?_eq_some_iff.mp found
    exact ⟨⟨h, fun _ hr => hr⟩, r, hr, named, rfl⟩
  · rename_i absent
    have fresh := UniqueTable.find?_eq_none_iff.mp absent
    have kept (r : TermRow) (hr : r ∈ d.rows.rows) :
        r ∈ (d.rows.insertNew ⟨hash128, d.nextId, info⟩).rows :=
      UniqueTable.mem_insertNew.mpr (.inl hr)
    refine ⟨⟨?_, kept⟩, ⟨hash128, d.nextId, info⟩,
      UniqueTable.mem_insertNew.mpr (.inr ⟨fresh, rfl⟩), rfl, rfl⟩
    intro other id cached
    obtain ⟨r, hr, named⟩ := h other id cached
    exact ⟨r, kept r hr, named⟩

theorem Sound.encodeTiers (h : d.Sound) (session : Session) (hash128 : Hash) (info : TermInfo) :
    Extends d (d.encodeTiers session hash128 info).2 ∧
      (d.encodeTiers session hash128 info).2.Stored hash128
        (d.encodeTiers session hash128 info).1 := by
  obtain ⟨looked, answer⟩ := h.lookupTiers session hash128
  rw [Dict.encodeTiers]
  dsimp only
  split
  · rename_i id found
    exact ⟨looked, looked.stored (answer id found)⟩
  · obtain ⟨extended, row⟩ := looked.sound.upsert hash128 info
    have published := extended.sound.publish session row
    exact ⟨looked.trans (extended.trans published), published.stored row⟩

/-- One encoder for all terms that are not quoted triples. -/
theorem Sound.encode (h : d.Sound) (codec : Codec) (session : Session) (term : Text) (kind : Kind) :
    Extends d (d.encode codec session term kind).2 ∧
      (d.encode codec session term kind).2.Stored (codec.termHash (written codec term kind) kind)
        (d.encode codec session term kind).1 := by
  rw [encode_eq]
  exact h.encodeTiers session _ _

theorem Sound.encodeRdfTerm (h : d.Sound) (codec : Codec) (session : Session) (t : RdfTerm) :
    Extends d (d.encodeRdfTerm codec session t).2 ∧
      (t.Inlined codec (d.encodeRdfTerm codec session t).1 ∨
        (d.encodeRdfTerm codec session t).2.HasRow (d.encodeRdfTerm codec session t).1) := by
  induction t generalizing d with
  | plain term kind =>
    obtain ⟨extended, row⟩ := h.encode codec session term kind
    exact ⟨extended, .inr row.hasRow⟩
  | typed value datatype =>
    simp only [Dict.encodeRdfTerm, encodeTypedLiteral]
    split
    · rename_i id inlined
      exact ⟨.refl h, .inl inlined⟩
    · obtain ⟨extended, row⟩ := h.encodeTiers session _ _
      exact ⟨extended, .inr row.hasRow⟩
  | lang value lang =>
    obtain ⟨extended, row⟩ := h.encodeTiers session
      (codec.termHash ('"' :: value ++ "\"@".toList ++ lang) .langLiteral)
      ⟨value, .langLiteral, none, some lang, none⟩
    exact ⟨extended, .inr row.hasRow⟩
  | quoted s p o subject predicate object =>
    have first := (subject h).1
    have second := (predicate first.sound).1
    have third := (object second.sound).1
    obtain ⟨extended, row⟩ := third.sound.encodeTiers session _ _
    exact ⟨first.trans (second.trans (third.trans extended)), .inr row.hasRow⟩

theorem Sound.lookupAll (h : d.Sound) (codec : Codec) (session : Session)
    (terms : List (Text × Kind)) :
    Extends d (d.lookupAll codec session terms).2 ∧
      (d.lookupAll codec session terms).1.map Prod.fst = terms ∧
      ∀ x ∈ (d.lookupAll codec session terms).1, ∀ id, x.2 = some id →
        d.Stored (codec.termHash x.1.1 x.1.2) id := by
  induction terms generalizing d with
  | nil => exact ⟨.refl h, rfl, by simp [Dict.lookupAll]⟩
  | cons t rest ih =>
    obtain ⟨looked, answer⟩ := h.lookupTiers session (codec.termHash t.1 t.2)
    obtain ⟨extended, order, answers⟩ := ih looked.sound
    refine ⟨looked.trans extended, congrArg _ order, ?_⟩
    intro x hx id found
    cases List.mem_cons.mp hx with
    | inl first =>
      rw [first] at found ⊢
      exact answer id found
    | inr later => exact answers x later id found

theorem Sound.upsertAll (h : d.Sound) (codec : Codec) (terms : List (Text × Kind)) :
    Extends d (d.upsertAll codec terms).2 ∧
      ∀ x ∈ (d.upsertAll codec terms).1, (d.upsertAll codec terms).2.Stored x.1 x.2 := by
  induction terms generalizing d with
  | nil => exact ⟨.refl h, by simp [Dict.upsertAll]⟩
  | cons t rest ih =>
    obtain ⟨stored, row⟩ := h.upsert (codec.termHash t.1 t.2) ⟨t.1, t.2, none, none, none⟩
    obtain ⟨extended, rows⟩ := ih stored.sound
    refine ⟨stored.trans extended, ?_⟩
    intro x hx
    cases List.mem_cons.mp hx with
    | inl first =>
      obtain ⟨r, hr, named⟩ := row
      rw [first]
      exact ⟨r, extended.rows r hr, named⟩
    | inr later => exact rows x later

theorem Sound.publishAll (h : d.Sound) (session : Session) (entries : List (Hash × Int))
    (stored : ∀ x ∈ entries, d.Stored x.1 x.2) :
    Extends d (entries.foldl (fun d x => d.publish session x.1 x.2) d) := by
  induction entries generalizing d with
  | nil => exact .refl h
  | cons x rest ih =>
    have published := h.publish session (stored x List.mem_cons_self)
    refine published.trans (ih published.sound ?_)
    intro y hy
    obtain ⟨r, hr, named⟩ := stored y (List.mem_cons_of_mem x hy)
    exact ⟨r, published.rows r hr, named⟩

/-- The pairs that neither cache answers, when the caches are asked in order. -/
def misses (codec : Codec) (session : Session) (terms : List (Text × Kind)) (d : Dict) :
    List (Text × Kind) :=
  ((d.lookupAll codec session terms).1.filter fun x => x.2.isNone).map Prod.fst

theorem map_fst_upsertAll (codec : Codec) (terms : List (Text × Kind)) (d : Dict) :
    (d.upsertAll codec terms).1.map Prod.fst = terms.map fun t => codec.termHash t.1 t.2 := by
  induction terms generalizing d with
  | nil => rfl
  | cons t rest ih => exact congrArg _ (ih _)

/-- An entry is found under the reassembled hash of a row. -/
theorem exists_of_hashToId {stored : List (Hash × Int)}
    (found : (hashToId stored).lookup hash128 = some id) :
    ∃ x ∈ stored, reassemble (hashHi x.1) (hashLo x.1) = hash128 ∧ x.2 = id := by
  obtain ⟨before, after, split, -⟩ := List.lookup_eq_some_iff.mp found
  have member : (hash128, id) ∈ hashToId stored := by
    rw [split]
    exact List.mem_append_right before List.mem_cons_self
  obtain ⟨x, hx, same⟩ := List.mem_map.mp member
  exact ⟨x, List.mem_reverse.mp hx, congrArg Prod.fst same, congrArg Prod.snd same⟩

theorem reassembles_of_hashToId {stored : List (Hash × Int)}
    (found : (hashToId stored).lookup hash128 = some id) : Reassembles hash128 := by
  obtain ⟨x, -, rfl, -⟩ := exists_of_hashToId found
  exact reassembles_reassemble

theorem hashToId_isSome {stored : List (Hash × Int)} (member : hash128 ∈ stored.map Prod.fst)
    (whole : Reassembles hash128) : ∃ id, (hashToId stored).lookup hash128 = some id := by
  obtain ⟨x, hx, rfl⟩ := List.mem_map.mp member
  have key : (reassemble (hashHi x.1) (hashLo x.1), x.2) ∈ hashToId stored :=
    List.mem_map_of_mem (List.mem_reverse.mpr hx)
  have whole : reassemble (hashHi x.1) (hashLo x.1) = x.1 := whole
  rw [whole] at key
  apply Option.isSome_iff_exists.mp
  apply List.lookup_isSome_iff.mpr
  exact ⟨_, key, beq_self_eq_true x.1⟩

/-- The rows of the statement that a batch issues. -/
def batchRows (codec : Codec) (session : Session) (terms : List (Text × Kind)) (d : Dict) :
    List (Hash × Int) :=
  ((d.lookupAll codec session terms).2.upsertAll codec (d.misses codec session terms)).1

/-- The id that the statement returns for a pair, as `encode_batch` finds it. -/
def batchAnswer (codec : Codec) (session : Session) (terms : List (Text × Kind)) (d : Dict)
    (t : Text × Kind) : Option Int :=
  (hashToId (d.batchRows codec session terms)).lookup (codec.termHash t.1 t.2)

theorem encodeBatch_eq_some {terms : List (Text × Kind)} {ids : List Int}
    (done : d.encodeBatch codec session terms = some (ids, d')) :
    ∃ known : List (Hash × Int),
      (∀ t ∈ d.misses codec session terms, jsonText t.1 = true ∧
        ∃ id, d.batchAnswer codec session terms t = some id) ∧
      (∀ x ∈ known, ∃ t ∈ d.misses codec session terms, x.1 = codec.termHash t.1 t.2 ∧
        d.batchAnswer codec session terms t = some x.2) ∧
      List.Forall₂ (fun x id => x.2.or (d.batchAnswer codec session terms x.1) = some id)
        (d.lookupAll codec session terms).1 ids ∧
      d' = known.foldl (fun d x => d.publish session x.1 x.2)
        ((d.lookupAll codec session terms).2.upsertAll codec (d.misses codec session terms)).2 := by
  rw [Dict.encodeBatch] at done
  dsimp only at done
  split at done
  · rename_i clean
    obtain ⟨known, answered, done⟩ := Option.bind_eq_some_iff.mp done
    obtain ⟨answers, found, done⟩ := Option.bind_eq_some_iff.mp done
    cases done
    refine ⟨known, ?_, ?_, Fold.mapM_eq_some_iff.mp found, rfl⟩
    · intro t miss
      obtain ⟨x, here⟩ := Fold.exists_of_mapM_eq_some answered miss
      obtain ⟨id, answer, -⟩ := Option.map_eq_some_iff.mp here
      exact ⟨List.all_eq_true.mp clean t miss, id, answer⟩
    · intro x hx
      obtain ⟨t, miss, here⟩ := (Fold.mem_of_mapM_eq_some answered).mp hx
      obtain ⟨id, answer, rfl⟩ := Option.map_eq_some_iff.mp here
      exact ⟨t, miss, rfl, answer⟩
  · cases done

theorem mem_misses {terms : List (Text × Kind)} {t : Text × Kind} :
    t ∈ d.misses codec session terms ↔ (t, none) ∈ (d.lookupAll codec session terms).1 := by
  simp only [misses, List.mem_map, List.mem_filter, Option.isNone_iff_eq_none]
  constructor
  · rintro ⟨x, ⟨hx, missed⟩, rfl⟩
    rwa [← missed]
  · intro hx
    exact ⟨(t, none), ⟨hx, rfl⟩, rfl⟩

/-- Exactly the batches succeed whose misses fit into JSON and keep their hashes. -/
theorem encodeBatch_isSome_iff {terms : List (Text × Kind)} :
    (d.encodeBatch codec session terms).isSome ↔
      ∀ t ∈ d.misses codec session terms,
        jsonText t.1 = true ∧ Reassembles (codec.termHash t.1 t.2) := by
  constructor
  · intro succeeds t miss
    obtain ⟨⟨ids, d'⟩, done⟩ := Option.isSome_iff_exists.mp succeeds
    obtain ⟨known, answered, -⟩ := encodeBatch_eq_some done
    obtain ⟨text, id, found⟩ := answered t miss
    exact ⟨text, reassembles_of_hashToId found⟩
  · intro fits
    have answered : ∀ t ∈ d.misses codec session terms,
        ∃ id, d.batchAnswer codec session terms t = some id := by
      intro t miss
      refine hashToId_isSome ?_ (fits t miss).2
      rw [batchRows, map_fst_upsertAll]
      exact List.mem_map_of_mem (f := fun t => codec.termHash t.1 t.2) miss
    obtain ⟨known, published⟩ := Fold.exists_mapM_eq_some
      (f := fun t => (d.batchAnswer codec session terms t).map fun id =>
        (codec.termHash t.1 t.2, id)) (l := d.misses codec session terms) (by
        intro t miss
        obtain ⟨id, answer⟩ := answered t miss
        exact ⟨_, congrArg _ answer⟩)
    obtain ⟨ids, found⟩ := Fold.exists_mapM_eq_some
      (f := fun x => x.2.or (d.batchAnswer codec session terms x.1))
      (l := (d.lookupAll codec session terms).1) (by
        intro x hx
        cases hit : x.2 with
        | some id => exact ⟨id, rfl⟩
        | none => exact answered x.1 (mem_misses.mpr (hit ▸ hx)))
    have clean : (d.misses codec session terms).all (fun t => jsonText t.1) = true :=
      List.all_eq_true.mpr fun t miss => (fits t miss).1
    have done : d.encodeBatch codec session terms = some (ids,
        known.foldl (fun d x => d.publish session x.1 x.2)
          ((d.lookupAll codec session terms).2.upsertAll codec
            (d.misses codec session terms)).2) := by
      rw [Dict.encodeBatch]
      dsimp only
      refine (if_pos clean).trans ?_
      refine (congrArg (Option.bind · _) published).trans ?_
      exact congrArg (Option.bind · _) found
    rw [done]
    rfl

/-- A batch that succeeds returns, for each of its terms, the id of the row with its hash. -/
theorem Sound.encodeBatch {terms : List (Text × Kind)} {ids : List Int} (h : d.Sound)
    (done : d.encodeBatch codec session terms = some (ids, d')) :
    Extends d d' ∧
      List.Forall₂ (fun t id => d'.Stored (codec.termHash t.1 t.2) id) terms ids := by
  have whole : ∀ t ∈ d.misses codec session terms, Reassembles (codec.termHash t.1 t.2) := by
    have succeeds : (d.encodeBatch codec session terms).isSome := by
      rw [done]
      rfl
    exact fun t miss => (encodeBatch_isSome_iff.mp succeeds t miss).2
  obtain ⟨looked, order, answers⟩ := h.lookupAll codec session terms
  obtain ⟨inserted, rows⟩ := looked.sound.upsertAll codec (d.misses codec session terms)
  obtain ⟨known, -, published, results, final⟩ := encodeBatch_eq_some done
  -- a miss has kept its hash, so what is found under it is its own row
  have answered : ∀ t id, d.batchAnswer codec session terms t = some id →
      ((d.lookupAll codec session terms).2.upsertAll codec (d.misses codec session terms)).2.Stored
        (codec.termHash t.1 t.2) id := by
    intro t id found
    obtain ⟨x, hx, key, rfl⟩ := exists_of_hashToId found
    have hashes : x.1 ∈ (d.batchRows codec session terms).map Prod.fst := List.mem_map_of_mem hx
    rw [batchRows, map_fst_upsertAll] at hashes
    obtain ⟨t', miss, same⟩ := List.mem_map.mp hashes
    have kept : reassemble (hashHi x.1) (hashLo x.1) = x.1 := by
      rw [← same]
      exact whole t' miss
    rw [← key, kept]
    exact rows x hx
  have shown := inserted.sound.publishAll session known fun x hx => by
    obtain ⟨t, -, hash, found⟩ := published x hx
    rw [hash]
    exact answered t x.2 found
  rw [← final] at shown
  refine ⟨looked.trans (inserted.trans shown), ?_⟩
  rw [← order, List.forall₂_map_left_iff]
  refine List.forall₂_iff_zip.mpr ⟨results.length_eq, ?_⟩
  intro x id paired
  have result := List.forall₂_zip results paired
  have member := (List.of_mem_zip paired).1
  cases hit : x.2 with
  | some found =>
    rw [hit] at result
    cases result
    exact (looked.trans (inserted.trans shown)).stored (answers x member id hit)
  | none =>
    rw [hit] at result
    exact shown.stored (answered x.1 id result)

theorem Sound.lookup (h : d.Sound) (codec : Codec) (session : Session) (term : Text) (kind : Kind) :
    Extends d (d.lookup codec session term kind).2 := by
  rw [Dict.lookup]
  dsimp only
  have looked : Extends d (d.setTiers session
      ⟨d.shared, (Cache.get (codec.termHash term kind) (d.encodeCaches session)).2⟩) := by
    refine h.setTiers (fun hash128 id held => h hash128 id (.inl held)) ?_
    intro e he
    exact h e.1 e.2 (.inr ⟨session, Cache.mem_get he⟩)
  split
  · exact looked
  · split
    · rename_i r found
      obtain ⟨hr, named⟩ := UniqueTable.find?_eq_some_iff.mp found
      refine looked.trans (looked.sound.setTiers ?_ ?_)
      · intro hash128 id held
        exact h hash128 id (.inl held)
      · intro e he
        cases Cache.mem_put he with
        | inl new =>
          rw [new]
          exact ⟨r, hr, named, rfl⟩
        | inr old => exact looked.sound e.1 e.2 (.inr ⟨session, old⟩)
    · exact looked

/-- Rows that a predicate on ids keeps. -/
def deleteUnless (d : Dict) (kept : Int → Bool) : Dict :=
  { d with rows := d.rows.deleteWhere fun r => !kept r.id }

variable {kept : Int → Bool}

theorem decodeFull_deleteUnless :
    (d.deleteUnless kept).decodeFull id = if kept id then d.decodeFull id else none := by
  have found : (d.deleteUnless kept).rows.rows.find? (fun r => r.id = id) =
      if kept id then d.rows.rows.find? fun r => r.id = id else none := by
    simp only [deleteUnless, UniqueTable.deleteWhere, List.find?_filter]
    by_cases keep : kept id = true
    · rw [if_pos keep]
      congr 1
      funext r
      by_cases same : r.id = id
      · simp [same, keep]
      · simp [same]
    · rw [if_neg keep]
      refine List.find?_eq_none.mpr ?_
      intro r _
      by_cases same : r.id = id
      · simp [same, keep]
      · simp [same]
  rw [decodeFull, found]
  split <;> rfl

theorem decodeFull_eq_some (h : d.decodeFull id = some info) : d.HasRow id := by
  obtain ⟨r, found, -⟩ := Option.map_eq_some_iff.mp h
  exact ⟨r, List.mem_of_find?_eq_some found, by simpa using List.find?_some found⟩

theorem exists_decodeFull (h : d.HasRow id) : ∃ info, d.decodeFull id = some info := by
  obtain ⟨r, hr, named⟩ := h
  refine Option.isSome_iff_exists.mp ?_
  rw [decodeFull, Option.isSome_map]
  exact List.find?_isSome.mpr ⟨r, hr, by simpa using named⟩

/-- The smaller table reads the same for an id. -/
def ReadsSame (codec : Codec) (d d' : Dict) (id : Int) : Prop :=
  ∀ depth, d'.decodeTo codec depth id = d.decodeTo codec depth id

theorem ReadsSame.keeps (h : ReadsSame codec d (d.deleteUnless kept) id)
    (dictionary : isInline id = false) (row : d.HasRow id) : kept id = true := by
  obtain ⟨info, found⟩ := exists_decodeFull row
  by_contra gone
  have same := h 1
  simp only [decodeTo, dictionary, decodeFull_deleteUnless, if_neg gone, found] at same
  cases quoted : info.quotedTriple with
  | none => simp [quoted] at same
  | some components => simp [quoted] at same

/-- A quoted triple that is read the same has components that are. -/
theorem ReadsSame.component {component : Int} (h : ReadsSame codec d (d.deleteUnless kept) id)
    (quotes : d.Quotes id component) : ReadsSame codec d (d.deleteUnless kept) component := by
  obtain ⟨dictionary, info, s, p, o, found, quoted, which⟩ := quotes
  have keep := h.keeps dictionary (decodeFull_eq_some found)
  intro depth
  have same := h (depth + 1)
  simp only [decodeTo, dictionary, decodeFull_deleteUnless, if_pos keep, found, quoted] at same
  obtain ⟨-, subject, predicate, object⟩ := Decoded.quoted.inj same
  obtain rfl | rfl | rfl := which
  · exact subject
  · exact predicate
  · exact object

theorem ReadsSame.reached {id' : Int} (h : ReadsSame codec d (d.deleteUnless kept) id)
    (reached : Relation.ReflTransGen d.Quotes id id') :
    ReadsSame codec d (d.deleteUnless kept) id' := by
  induction reached with
  | refl => exact h
  | tail _ quotes ih => exact ih.component quotes

/-- Exactly the rows of the terms that are quoted, at any depth, have to be kept. -/
theorem readsSame_iff :
    ReadsSame codec d (d.deleteUnless kept) id ↔
      ∀ id', Relation.ReflTransGen d.Quotes id id' → isInline id' = false → d.HasRow id' →
        kept id' = true := by
  constructor
  · intro same id' reached dictionary row
    exact (same.reached reached).keeps dictionary row
  · intro keeps depth
    induction depth generalizing id with
    | zero => rfl
    | succ n ih =>
      cases dictionary : isInline id with
      | true => simp only [decodeTo, dictionary, if_true]
      | false =>
        cases found : d.decodeFull id with
        | none =>
          have still : (d.deleteUnless kept).decodeFull id = none := by
            rw [decodeFull_deleteUnless, found, ite_self]
          simp only [decodeTo, dictionary, found, still]
        | some info =>
          have keep := keeps id .refl dictionary (decodeFull_eq_some found)
          have still : (d.deleteUnless kept).decodeFull id = some info := by
            rw [decodeFull_deleteUnless, if_pos keep, found]
          cases quoted : info.quotedTriple with
          | none => simp only [decodeTo, dictionary, found, still, quoted]
          | some components =>
            obtain ⟨s, p, o⟩ := components
            have inner (c : Int) (which : c = s ∨ c = p ∨ c = o) :
                (d.deleteUnless kept).decodeTo codec n c = d.decodeTo codec n c := by
              refine ih ?_
              intro id' reached
              refine keeps id' (.head ?_ reached)
              exact ⟨dictionary, info, s, p, o, found, quoted, which⟩
            simp only [decodeTo, dictionary, found, still, quoted, inner s (.inl rfl),
              inner p (.inr (.inl rfl)), inner o (.inr (.inr rfl))]

end Dict

end PgRipple.Dictionary
