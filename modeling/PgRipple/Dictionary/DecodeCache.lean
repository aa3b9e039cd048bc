import PgRipple.Dictionary.Batch
import PgRipple.Lib.Run

/-!
# The decode cache

Each backend remembers texts of ids. `decode` fills this cache from the `value` column; an encoder
that had to go to the table fills it with a text of its own, which for typed and language-tagged
literals is not the `value` of the row. Decoding does not depend on the cache as long as every
encoder that reaches the table pushes the text that the row has.
-/

namespace PgRipple.Dictionary

namespace Dict

/-- The value of the row with an id. -/
def valueOf (d : Dict) (id : Int) : Option Text := (d.decodeFull id).map TermInfo.value

variable {d d' : Dict} {session : Session} {hash128 : Hash} {info : TermInfo} {id : Int} {v : Text}
  {r : TermRow}

theorem Numbered.valueOf_eq_some_iff (h : d.Numbered) :
    d.valueOf id = some v ↔ ∃ r ∈ d.rows.rows, r.id = id ∧ r.info.value = v := by
  rw [valueOf, decodeFull, Option.map_map, Option.map_eq_some_iff]
  constructor
  · rintro ⟨r, found, value⟩
    exact ⟨r, List.mem_of_find?_eq_some found, by simpa using List.find?_some found, value⟩
  · rintro ⟨r, hr, named, value⟩
    have present : (d.rows.rows.find? fun r => r.id = id).isSome :=
      List.find?_isSome.mpr ⟨r, hr, decide_eq_true named⟩
    obtain ⟨r', found⟩ := Option.isSome_iff_exists.mp present
    have named' : r'.id = id := by simpa using List.find?_some found
    have same := h.unique r hr r' (List.mem_of_find?_eq_some found) (named.trans named'.symm)
    exact ⟨r', found, same ▸ value⟩

/-- A larger table says the same of the ids that it had. -/
theorem Numbered.valueOf_of_subset (h : d.Numbered) (h' : d'.Numbered)
    (more : ∀ r ∈ d.rows.rows, r ∈ d'.rows.rows) (value : d.valueOf id = some v) :
    d'.valueOf id = some v := by
  obtain ⟨r, hr, same⟩ := h.valueOf_eq_some_iff.mp value
  exact h'.valueOf_eq_some_iff.mpr ⟨r, more r hr, same⟩

theorem mem_rows_encodeTiers (hr : r ∈ d.rows.rows) :
    r ∈ (d.encodeTiers session hash128 info).2.rows.rows := by
  rw [encodeTiers]
  dsimp only
  split
  · exact hr
  · rw [upsert]
    dsimp only
    split
    · exact hr
    · exact UniqueTable.mem_insertNew.mpr (.inl hr)

/-- A term that no cache knows ends up with a row: the old one or a new one. -/
theorem encodeTiers_of_missed (info : TermInfo)
    (missed : ((d.tiers session).lookup hash128).1 = none) :
    ∃ r ∈ (d.encodeTiers session hash128 info).2.rows.rows,
      (d.encodeTiers session hash128 info).1 = r.id ∧ r.info.value =
        match d.rows.find? hash128 with
        | some r => r.info.value
        | none => info.value := by
  rw [encodeTiers]
  dsimp only
  split
  · rename_i id found
    rw [missed] at found
    cases found
  · cases old : d.rows.find? hash128 with
    | some r =>
      have found : (d.setTiers session ((d.tiers session).lookup hash128).2).rows.find? hash128 =
          some r := old
      rw [upsert]
      dsimp only
      rw [found]
      exact ⟨r, (UniqueTable.find?_eq_some_iff.mp old).1, rfl, rfl⟩
    | none =>
      have absent : (d.setTiers session ((d.tiers session).lookup hash128).2).rows.find? hash128 =
          none := old
      rw [upsert]
      dsimp only
      rw [absent]
      have new := UniqueTable.find?_eq_none_iff.mp old
      exact ⟨⟨hash128, d.nextId, info⟩, UniqueTable.mem_insertNew.mpr (.inr ⟨new, rfl⟩), rfl, rfl⟩

end Dict

/-- The dictionary with the decode caches of all backends. -/
structure CachedDict where
  dict : Dict
  decodeCaches : Session → List (Int × Text)

namespace CachedDict

def initial (ready : Bool) (dbOid : BitVec 32) : CachedDict := ⟨.initial ready dbOid, fun _ => []⟩

def setDecodeCache (s : CachedDict) (session : Session) (cache : List (Int × Text)) : CachedDict :=
  { s with decodeCaches := Function.update s.decodeCaches session cache }

/-- No backend remembers a text. -/
def forget (s : CachedDict) : CachedDict := { s with decodeCaches := fun _ => [] }

/-- What `decode` reports for an id without a row. -/
def missingId (id : Int) : Text :=
  "dictionary decode: id ".toList ++ (toString id).toList ++
    " not found; set pg_ripple.strict_dictionary = off to use placeholder strings".toList

/-- `decode`. With `pg_ripple.strict_dictionary` a missing id is an error. -/
def decode (strict : Bool) (codec : Codec) (session : Session) (id : Int) (s : CachedDict) :
    Except Text (Option Text) × CachedDict :=
  if isInline id then (.ok (some (formatInline codec.chrono id)), s)
  else
    let (found, cache) := Cache.get id (s.decodeCaches session)
    match found with
    | some value => (.ok (some value), s.setDecodeCache session cache)
    | none =>
      match s.dict.decodeFull id with
      | some info =>
        (.ok (some info.value),
          s.setDecodeCache session (Cache.put cacheCapacity id info.value cache))
      | none =>
        if strict then (.error (missingId id), s) else (.ok none, s)

/-- The three tiers; a term that reaches the table leaves a text in the decode cache. -/
def encodeTiers (session : Session) (hash128 : Hash) (info : TermInfo) (pushed : Text)
    (s : CachedDict) : Int × CachedDict :=
  let (id, dict) := s.dict.encodeTiers session hash128 info
  match ((s.dict.tiers session).lookup hash128).1 with
  | some _ => (id, { s with dict := dict })
  | none =>
    (id, { s with dict := dict }.setDecodeCache session
      (Cache.put cacheCapacity id pushed (s.decodeCaches session)))

/-- `encode_inner`: the term itself is remembered. -/
def encodeInner (codec : Codec) (session : Session) (term : Text) (kind : Kind) (s : CachedDict) :
    Int × CachedDict :=
  s.encodeTiers session (codec.termHash term kind) ⟨term, kind, none, none, none⟩ term

def encode (codec : Codec) (session : Session) (term : Text) (kind : Kind) (s : CachedDict) :
    Int × CachedDict :=
  s.encodeInner codec session (Dict.written codec term kind) kind

/-- The canonical form is remembered, not the value. -/
def encodeTypedLiteral (codec : Codec) (session : Session) (value datatype : Text)
    (s : CachedDict) : Int × CachedDict :=
  match tryEncodeInline codec.chrono value datatype with
  | some id => (id, s)
  | none =>
    let canonical := writeTyped value datatype
    s.encodeTiers session (codec.termHash canonical .typedLiteral)
      ⟨value, .typedLiteral, some datatype, none, none⟩ canonical

/-- The text that `encode_lang_literal` hashes. -/
def writeLang (value lang : Text) : Text := '"' :: value ++ "\"@".toList ++ lang

def encodeLangLiteral (codec : Codec) (session : Session) (value lang : Text) (s : CachedDict) :
    Int × CachedDict :=
  let canonical := writeLang value lang
  s.encodeTiers session (codec.termHash canonical .langLiteral)
    ⟨value, .langLiteral, none, some lang, none⟩ canonical

/-- The text of a quoted triple, with its components as they read now. -/
def writeQuoted (codec : Codec) (d : Dict) (s p o : Int) : Text :=
  "<< ".toList ++ d.formatNtriples codec s ++ " ".toList ++ d.formatNtriples codec p ++
    " ".toList ++ d.formatNtriples codec o ++ " >>".toList

def encodeQuotedTriple (codec : Codec) (session : Session) (subject predicate object : Int)
    (s : CachedDict) : Int × CachedDict :=
  let canonical := writeQuoted codec s.dict subject predicate object
  s.encodeTiers session (codec.quotedTripleHash subject predicate object)
    ⟨canonical, .quotedTriple, none, none, some (subject, predicate, object)⟩ canonical

/-- `invalidate_decode_cache`, which clears both caches of the backend. -/
def invalidateDecodeCache (session : Session) (s : CachedDict) : CachedDict :=
  { s with dict := s.dict.setTiers session ⟨s.dict.shared, []⟩ }.setDecodeCache session []

/-- `clear_caches`: the hashes that the transaction has published leave the shared cache. -/
def clearCaches (session : Session) (published : List Hash) (s : CachedDict) : CachedDict :=
  let shared := published.foldl SharedCache.evict s.dict.shared
  { s with dict := s.dict.setTiers session ⟨shared, []⟩ }.setDecodeCache session []

/-- `flush_encode_cache`. -/
def flushEncodeCache (session : Session) (published : List Hash) (s : CachedDict) : CachedDict :=
  let tiers : Tiers := ⟨s.dict.shared.clearAll, s.dict.encodeCaches session⟩
  clearCaches session published { s with dict := s.dict.setTiers session tiers }

end CachedDict

/-- What a backend may call. -/
inductive CodecCall
  | encode (term : Text) (kind : Kind)
  | encodeTypedLiteral (value datatype : Text)
  | encodeLangLiteral (value lang : Text)
  | encodeQuotedTriple (subject predicate object : Int)
  | decode (id : Int)
  | invalidateDecodeCache
  | clearCaches (published : List Hash)
  | flushEncodeCache (published : List Hash)
  deriving DecidableEq

namespace CachedDict

/-- One call; none is refused. -/
def step (strict : Bool) (codec : Codec) (s : CachedDict) : Session × CodecCall → Option CachedDict
  | (session, .encode term kind) => some (s.encode codec session term kind).2
  | (session, .encodeTypedLiteral value datatype) =>
    some (s.encodeTypedLiteral codec session value datatype).2
  | (session, .encodeLangLiteral value lang) => some
      (s.encodeLangLiteral codec session value lang).2
  | (session, .encodeQuotedTriple subject predicate object) =>
    some (s.encodeQuotedTriple codec session subject predicate object).2
  | (session, .decode id) => some (s.decode strict codec session id).2
  | (session, .invalidateDecodeCache) => some (s.invalidateDecodeCache session)
  | (session, .clearCaches published) => some (s.clearCaches session published)
  | (session, .flushEncodeCache published) => some (s.flushEncodeCache session published)

/-- Every backend decodes every id as it would with an empty decode cache. -/
def Independent (strict : Bool) (codec : Codec) (s : CachedDict) : Prop :=
  ∀ session id,
    (s.decode strict codec session id).1 = (s.forget.decode strict codec session id).1

/-- A cache knows the hash, or the text that is pushed is the value of the row that will be
there. -/
def Truthful (s : CachedDict) (session : Session) (hash128 : Hash) (info : TermInfo)
    (pushed : Text) : Prop :=
  ((s.dict.tiers session).lookup hash128).1 = none →
    (match s.dict.rows.find? hash128 with
      | some r => r.info.value
      | none => info.value) = pushed

/-- The call leaves no other text than that of the row. -/
def Harmless (codec : Codec) (s : CachedDict) : Session × CodecCall → Prop
  | (session, .encode term kind) =>
    s.Truthful session (codec.termHash (Dict.written codec term kind) kind)
      ⟨Dict.written codec term kind, kind, none, none, none⟩ (Dict.written codec term kind)
  | (session, .encodeTypedLiteral value datatype) =>
    tryEncodeInline codec.chrono value datatype = none →
      s.Truthful session (codec.termHash (writeTyped value datatype) .typedLiteral)
        ⟨value, .typedLiteral, some datatype, none, none⟩ (writeTyped value datatype)
  | (session, .encodeLangLiteral value lang) =>
    s.Truthful session (codec.termHash (writeLang value lang) .langLiteral)
      ⟨value, .langLiteral, none, some lang, none⟩ (writeLang value lang)
  | (session, .encodeQuotedTriple subject predicate object) =>
    s.Truthful session (codec.quotedTripleHash subject predicate object)
      ⟨writeQuoted codec s.dict subject predicate object, .quotedTriple, none, none,
        some (subject, predicate, object)⟩
      (writeQuoted codec s.dict subject predicate object)
  | _ => True

variable {s : CachedDict} {session : Session} {hash128 : Hash} {info : TermInfo} {pushed : Text}
  {codec : Codec} {strict : Bool} {id : Int} {v : Text} {d : Dict}

/-- What a backend remembers is what the table says. -/
def Coherent (s : CachedDict) : Prop :=
  ∀ session id v, isInline id = false → (Cache.get id (s.decodeCaches session)).1 = some v →
    s.dict.valueOf id = some v

theorem decode_of_cached (dictionary : isInline id = false)
    (found : (Cache.get id (s.decodeCaches session)).1 = some v) :
    (s.decode strict codec session id).1 = .ok (some v) := by
  rw [decode, if_neg (by simp [dictionary])]
  dsimp only
  rw [found]

theorem decode_of_missed (s : CachedDict) (strict : Bool) (codec : Codec)
    (dictionary : isInline id = false)
    (missed : (Cache.get id (s.decodeCaches session)).1 = none) :
    (s.decode strict codec session id).1 =
      match s.dict.valueOf id with
      | some v => .ok (some v)
      | none => if strict then .error (missingId id) else .ok none := by
  rw [decode, if_neg (by simp [dictionary]), Dict.valueOf]
  dsimp only
  rw [missed]
  cases s.dict.decodeFull id with
  | some info => rfl
  | none => cases strict <;> rfl

theorem independent_iff : s.Independent strict codec ↔ s.Coherent := by
  have empty (session : Session) (id : Int) (dictionary : isInline id = false) :=
    decode_of_missed s.forget strict codec dictionary
      (show (Cache.get id (s.forget.decodeCaches session)).1 = none from rfl)
  constructor
  · intro same session id v dictionary found
    have equal := same session id
    rw [decode_of_cached dictionary found, empty session id dictionary] at equal
    change _ = match s.dict.valueOf id with
      | some v => _
      | none => _ at equal
    cases value : s.dict.valueOf id with
    | some w =>
      rw [value] at equal
      exact (Except.ok.inj equal).symm
    | none =>
      rw [value] at equal
      cases strict <;> simp at equal
  · intro coherent session id
    cases dictionary : isInline id with
    | true => rw [decode, decode, if_pos dictionary, if_pos dictionary]
    | false =>
      rw [empty session id dictionary]
      cases found : (Cache.get id (s.decodeCaches session)).1 with
      | some v =>
        have value : s.forget.dict.valueOf id = some v := coherent session id v dictionary found
        rw [decode_of_cached dictionary found, value]
      | none =>
        rw [decode_of_missed s strict codec dictionary found]
        rfl

/-- The ids and the table are those of the dictionary without decode caches. -/
theorem encodeTiers_refines :
    (s.encodeTiers session hash128 info pushed).1 = (s.dict.encodeTiers session hash128 info).1 ∧
      (s.encodeTiers session hash128 info pushed).2.dict =
        (s.dict.encodeTiers session hash128 info).2 := by
  rw [encodeTiers]
  dsimp only
  split <;> exact ⟨rfl, rfl⟩

/-- A cache that is written keeps what it had under other keys. -/
theorem Coherent.setDecodeCache {cache : List (Int × Text)} (h : s.Coherent)
    (own : ∀ id v, isInline id = false → (Cache.get id cache).1 = some v →
      s.dict.valueOf id = some v) : (s.setDecodeCache session cache).Coherent := by
  intro session' id v dictionary found
  by_cases same : session' = session
  · subst same
    simp only [CachedDict.setDecodeCache, Function.update_self] at found
    exact own id v dictionary found
  · simp only [CachedDict.setDecodeCache, Function.update_of_ne same] at found
    exact h session' id v dictionary found

/-- The table may change if it says the same of the ids that are remembered. -/
theorem Coherent.setDict (h : s.Coherent)
    (more : ∀ id v, s.dict.valueOf id = some v → d.valueOf id = some v) :
    CachedDict.Coherent { s with dict := d } := by
  intro session id v dictionary found
  exact more id v (h session id v dictionary found)

theorem Coherent.decode (h : s.Coherent) : (s.decode strict codec session id).2.Coherent := by
  rw [CachedDict.decode]
  split
  · exact h
  · dsimp only
    have touched : ∀ id' v, isInline id' = false →
        (Cache.get id' (Cache.get id (s.decodeCaches session)).2).1 = some v →
        s.dict.valueOf id' = some v := by
      intro id' v dictionary found
      rw [Cache.get_get] at found
      exact h session id' v dictionary found
    split
    · exact h.setDecodeCache touched
    · split
      · rename_i info row
        refine h.setDecodeCache ?_
        intro id' v dictionary found
        by_cases same : id' = id
        · subst same
          rw [Cache.get_put_self (by decide)] at found
          rw [Dict.valueOf, row]
          exact found
        · exact touched id' v dictionary (Cache.get_of_get_put same found)
      · split <;> exact h

/-- An encoder keeps the caches right exactly if it pushes the value of the row. -/
theorem Coherent.encodeTiers_iff (h : s.Coherent) (numbered : s.dict.Numbered) :
    (s.encodeTiers session hash128 info pushed).2.Coherent ↔
      s.Truthful session hash128 info pushed := by
  have after := numbered.encodeTiers session hash128 info
  have more (id : Int) (v : Text) (value : s.dict.valueOf id = some v) :
      (s.dict.encodeTiers session hash128 info).2.valueOf id = some v :=
    numbered.valueOf_of_subset after (fun _ hr => Dict.mem_rows_encodeTiers hr) value
  have grown : CachedDict.Coherent { s with dict := (s.dict.encodeTiers session hash128 info).2 } :=
    h.setDict more
  rw [encodeTiers, Truthful]
  dsimp only
  cases answer : ((s.dict.tiers session).lookup hash128).1 with
  | some id => exact iff_of_true grown (by simp)
  | none =>
    obtain ⟨r, hr, named, value⟩ := Dict.encodeTiers_of_missed info answer
    have read : (s.dict.encodeTiers session hash128 info).2.valueOf
        (s.dict.encodeTiers session hash128 info).1 = some r.info.value :=
      after.valueOf_eq_some_iff.mpr ⟨r, hr, named.symm, rfl⟩
    rw [← value]
    have dictionary : isInline (s.dict.encodeTiers session hash128 info).1 = false := by
      have positive := (after.below r hr).1
      rw [named, isInline, decide_eq_false_iff_not]
      omega
    constructor
    · intro coherent _
      have told := coherent session _ pushed dictionary (by
        simp only [CachedDict.setDecodeCache, Function.update_self]
        exact Cache.get_put_self (by decide))
      exact Option.some.inj (read.symm.trans told)
    · intro truthful
      refine grown.setDecodeCache ?_
      intro id v dictionary found
      by_cases same : id = (s.dict.encodeTiers session hash128 info).1
      · subst same
        rw [Cache.get_put_self (by decide)] at found
        rw [← found, ← truthful rfl]
        exact read
      · exact more id v (h session id v dictionary (Cache.get_of_get_put same found))

theorem Coherent.clearCaches (h : s.Coherent) (published : List Hash) :
    (s.clearCaches session published).Coherent := by
  refine (h.setDict fun _ _ value => value).setDecodeCache ?_
  intro id v _ found
  cases found

theorem Coherent.step_iff {e : Session × CodecCall} (h : s.Coherent) (numbered : s.dict.Numbered) :
    s.Harmless codec e ↔ ∀ s', s.step strict codec e = some s' → s'.Coherent := by
  obtain ⟨session, call⟩ := e
  have after {s₁ : CachedDict} : s₁.Coherent ↔ ∀ s', some s₁ = some s' → s'.Coherent := by
    constructor
    · intro coherent s' same
      cases same
      exact coherent
    · intro all
      exact all s₁ rfl
  cases call with
  | encode term kind => exact (h.encodeTiers_iff numbered).symm.trans after
  | encodeTypedLiteral value datatype =>
    refine Iff.trans ?_ after
    rw [Harmless, encodeTypedLiteral]
    cases tryEncodeInline codec.chrono value datatype with
    | some id => exact iff_of_true (by simp) h
    | none =>
      simp only [forall_const]
      exact (h.encodeTiers_iff numbered).symm
  | encodeLangLiteral value lang => exact (h.encodeTiers_iff numbered).symm.trans after
  | encodeQuotedTriple subject predicate object =>
    exact (h.encodeTiers_iff numbered).symm.trans after
  | decode id => exact iff_of_true trivial (after.mp h.decode)
  | invalidateDecodeCache =>
    exact iff_of_true trivial (after.mp (h.clearCaches []))
  | clearCaches published => exact iff_of_true trivial (after.mp (h.clearCaches published))
  | flushEncodeCache published =>
    refine iff_of_true trivial (after.mp (Coherent.clearCaches ?_ published))
    exact h.setDict fun _ _ value => value

theorem numbered_step {e : Session × CodecCall} {s' : CachedDict} (h : s.dict.Numbered)
    (stepped : s.step strict codec e = some s') : s'.dict.Numbered := by
  have encoded (session : Session) (hash128 : Hash) (info : TermInfo) (pushed : Text) :
      (s.encodeTiers session hash128 info pushed).2.dict.Numbered := by
    rw [encodeTiers_refines.2]
    exact h.encodeTiers session hash128 info
  obtain ⟨session, call⟩ := e
  cases call with
  | encode term kind =>
    cases stepped
    exact encoded ..
  | encodeTypedLiteral value datatype =>
    cases stepped
    rw [encodeTypedLiteral]
    split
    · exact h
    · exact encoded ..
  | encodeLangLiteral value lang =>
    cases stepped
    exact encoded ..
  | encodeQuotedTriple subject predicate object =>
    cases stepped
    exact encoded ..
  | decode id =>
    cases stepped
    rw [CachedDict.decode]
    split
    · exact h
    · dsimp only
      split
      · exact h
      · split
        · exact h
        · split <;> exact h
  | invalidateDecodeCache =>
    cases stepped
    exact h.setTiers session _
  | clearCaches published =>
    cases stepped
    exact h.setTiers session _
  | flushEncodeCache published =>
    cases stepped
    exact (h.setTiers session _).setTiers session _

/-- In every state of a run decoding is independent of the decode caches exactly if no call of
the run leaves another text than that of the row. -/
theorem always_independent_iff {ready : Bool} {dbOid : BitVec 32}
    {calls : List (Session × CodecCall)} :
    Run.Always (step strict codec) (Independent strict codec) (initial ready dbOid) calls ↔
      Run.Along (step strict codec) (Harmless codec) (initial ready dbOid) calls := by
  have keeps : ∀ (s : CachedDict), ∀ call ∈ calls, ∀ s', s.dict.Numbered → Harmless codec s call →
      step strict codec s call = some s' → s'.dict.Numbered :=
    fun _ _ _ _ h _ stepped => numbered_step h stepped
  refine Run.always_iff_along _ keeps ?_ (Dict.numbered_initial ready dbOid) ?_
  · intro s e _ numbered independent
    simp only [independent_iff]
    exact (independent_iff.mp independent).step_iff numbered
  · apply independent_iff.mpr
    intro session id v _ found
    cases found

/-- A language-tagged literal is decoded before and after the caches are cleared. -/
theorem not_always_independent :
    ¬ ∀ (strict : Bool) (codec : Codec) (ready : Bool) (dbOid : BitVec 32)
      (calls : List (Session × CodecCall)),
      Run.Always (step strict codec) (Independent strict codec) (initial ready dbOid) calls := by
  intro promised
  have all := promised false Dict.letterCodec true 5 [(0, .encodeLangLiteral ['a'] ['e', 'n'])]
  have same : Independent false Dict.letterCodec
      ((initial true 5).encodeLangLiteral Dict.letterCodec 0 ['a'] ['e', 'n']).2 := all.2
  have different : (((initial true 5).encodeLangLiteral Dict.letterCodec 0 ['a']
      ['e', 'n']).2.decode
      false Dict.letterCodec 0 1).1.toOption ≠
      (((initial true 5).encodeLangLiteral Dict.letterCodec 0 ['a'] ['e', 'n']).2.forget.decode
        false Dict.letterCodec 0 1).1.toOption := by
    decide
  exact different (congrArg Except.toOption (same 0 1))

end CachedDict

end PgRipple.Dictionary
