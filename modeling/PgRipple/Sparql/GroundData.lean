import PgRipple.Dictionary.Batch
import PgRipple.Sparql.Update

/-!
# `INSERT DATA` and `DELETE DATA`

`INSERT DATA` encodes the terms of a quad and `DELETE DATA` looks them up. The two go through
the kinds of terms separately and part in two places: an IRI is normalised when it is encoded
but not when it is looked up, and of the nine integer datatypes whose values are inlined the
lookup knows three.

Each way to the id of a term is described by the hashes and inline ids it uses. Where these
are the same, the id is found again, whatever else was encoded in between.
-/

namespace PgRipple

namespace Dictionary.Dict

/-- `lookup_quoted_triple`, which does not put what it found into the cache. -/
def lookupQuotedTriple (codec : Codec) (session : Session) (s p o : Int) (d : Dict) :
    Option Int × Dict :=
  let hash128 := codec.quotedTripleHash s p o
  let (found, cache) := Cache.get hash128 (d.encodeCaches session)
  let d := d.setTiers session ⟨d.shared, cache⟩
  match found with
  | some id => (some id, d)
  | none => ((d.rows.find? hash128).map TermRow.id, d)

/-- Only the caches have changed. -/
structure SameRows (d d' : Dict) : Prop where
  sound : d'.Sound
  rows : d'.rows = d.rows
  nextId : d'.nextId = d.nextId

variable {d d' d'' : Dict} {codec : Codec} {session : Session} {hash128 : Hash} {id : Int}
  {term : Text} {kind : Kind} {s p o : Int}

theorem SameRows.trans (first : SameRows d d') (second : SameRows d' d'') : SameRows d d'' :=
  ⟨second.sound, second.rows.trans first.rows, second.nextId.trans first.nextId⟩

theorem SameRows.stored (h : SameRows d d') : d'.Stored hash128 id ↔ d.Stored hash128 id := by
  rw [Stored, Stored, h.rows]

theorem SameRows.extends (h : SameRows d d') : Extends d d' where
  sound := h.sound
  rows r hr := by rwa [h.rows]

theorem SameRows.numbered (h : SameRows d d') (numbered : d.Numbered) : d'.Numbered where
  unique := by
    rw [h.rows]
    exact numbered.unique
  below := by
    rw [h.rows, h.nextId]
    exact numbered.below
  next := by
    rw [h.nextId]
    exact numbered.next

theorem Sound.sameRows_get (h : d.Sound) (session : Session) (hash128 : Hash) :
    SameRows d (d.setTiers session
      ⟨d.shared, (Cache.get hash128 (d.encodeCaches session)).2⟩) := by
  refine ⟨(h.setTiers (fun other id held => h other id (.inl held)) ?_).sound, rfl, rfl⟩
  intro e he
  exact h e.1 e.2 (.inr ⟨session, Cache.mem_get he⟩)

/-- The row of a hash, found in the cache or in the table. -/
theorem Sound.answer_eq_some_iff (h : d.Sound) (session : Session) :
    (Cache.get hash128 (d.encodeCaches session)).1.or ((d.rows.find? hash128).map TermRow.id) =
      some id ↔ d.Stored hash128 id := by
  cases hit : (Cache.get hash128 (d.encodeCaches session)).1 with
  | some id' =>
    have row : d.Stored hash128 id' := h _ _ (.inr ⟨session, Cache.mem_of_get_eq_some hit⟩)
    rw [Option.some_or, Option.some.injEq]
    constructor
    · rintro rfl
      exact row
    · exact fun row' => row.id_unique row'
  | none =>
    rw [Option.none_or, Option.map_eq_some_iff]
    constructor
    · rintro ⟨r, found, named⟩
      obtain ⟨hr, hash⟩ := UniqueTable.find?_eq_some_iff.mp found
      exact ⟨r, hr, hash, named⟩
    · rintro ⟨r, hr, hash, named⟩
      exact ⟨r, UniqueTable.find?_eq_some_iff.mpr ⟨hr, hash⟩, named⟩

/-- What a lookup returns, and that it changes nothing but the caches. -/
structure Answers (d : Dict) (r : Option Int × Dict) (P : Int → Prop) : Prop where
  answer : ∀ id, r.1 = some id ↔ P id
  same : SameRows d r.2

theorem Answers.congr {r : Option Int × Dict} {P P' : Int → Prop} (h : Answers d r P)
    (iff : ∀ id, P id ↔ P' id) : Answers d r P' :=
  ⟨fun id => (h.answer id).trans (iff id), h.same⟩

theorem Sound.lookup_spec (h : d.Sound) :
    Answers d (d.lookup codec session term kind) (d.Stored (codec.termHash term kind)) := by
  have answer (id : Int) := @Sound.answer_eq_some_iff _ (codec.termHash term kind) id h session
  rw [Dict.lookup]
  dsimp only
  have got := h.sameRows_get session (codec.termHash term kind)
  cases hit : (Cache.get (codec.termHash term kind) (d.encodeCaches session)).1 with
  | some id' =>
    rw [hit] at answer
    exact ⟨answer, got⟩
  | none =>
    simp only [hit, Option.none_or] at answer
    cases found : d.rows.find? (codec.termHash term kind) with
    | none =>
      have absent : (d.setTiers session ⟨d.shared,
          (Cache.get (codec.termHash term kind) (d.encodeCaches session)).2⟩).rows.find?
          (codec.termHash term kind) = none := found
      simp only [absent]
      rw [found] at answer
      exact ⟨answer, got⟩
    | some r =>
      have present : (d.setTiers session ⟨d.shared,
          (Cache.get (codec.termHash term kind) (d.encodeCaches session)).2⟩).rows.find?
          (codec.termHash term kind) = some r := found
      simp only [present]
      rw [found] at answer
      refine ⟨answer, ?_, rfl, rfl⟩
      have extended := h.lookup codec session term kind
      rw [Dict.lookup] at extended
      simp only [hit, present] at extended
      exact extended.sound

theorem Sound.lookupQuotedTriple_spec (h : d.Sound) :
    Answers d (d.lookupQuotedTriple codec session s p o)
      (d.Stored (codec.quotedTripleHash s p o)) := by
  have answer (id : Int) :=
    @Sound.answer_eq_some_iff _ (codec.quotedTripleHash s p o) id h session
  rw [lookupQuotedTriple]
  dsimp only
  have got := h.sameRows_get session (codec.quotedTripleHash s p o)
  cases hit : (Cache.get (codec.quotedTripleHash s p o) (d.encodeCaches session)).1 with
  | some id' =>
    rw [hit] at answer
    exact ⟨answer, got⟩
  | none =>
    rw [hit] at answer
    exact ⟨answer, got⟩

/-- A lookup that goes on if the first one found something. -/
def lookupThen (r : Option Int × Dict) (f : Int → Dict → Option Int × Dict) :
    Option Int × Dict :=
  match r with
  | (none, d) => (none, d)
  | (some id, d) => f id d

theorem Answers.andThen {r : Option Int × Dict} {f : Int → Dict → Option Int × Dict}
    {P : Int → Prop} {Q : Int → Int → Prop} (first : Answers d r P)
    (second : ∀ id, Answers r.2 (f id r.2) (Q id)) :
    Answers d (lookupThen r f) fun out => ∃ id, P id ∧ Q id out := by
  obtain ⟨found, d'⟩ := r
  cases found with
  | none =>
    refine ⟨fun out => ?_, first.same⟩
    constructor
    · intro found
      cases found
    · rintro ⟨id, hP, -⟩
      cases (first.answer id).mpr hP
  | some id =>
    refine ⟨fun out => ?_, first.same.trans (second id).same⟩
    have hP : P id := (first.answer id).mp rfl
    refine ((second id).answer out).trans ⟨fun hQ => ⟨id, hP, hQ⟩, ?_⟩
    rintro ⟨id', hP', hQ⟩
    cases (first.answer id').mpr hP'
    exact hQ

end Dictionary.Dict

namespace Sparql

open Storage Dictionary

/-- Terms without variables and blank nodes. -/
inductive GroundTermValue where
  | namedNode (iri : Text)
  | literal (value datatype : Text) (language : Option Text)
  | triple (subject predicate : Text) (object : GroundTermValue)
  deriving DecidableEq

structure GroundQuad where
  subject : Text
  predicate : Text
  object : GroundTermValue
  /-- `none` is the default graph. -/
  graphName : Option Text
  deriving DecidableEq

/-- The datatypes of literals that are stored by their value alone. -/
def isPlainDatatype (datatype : Text) : Bool :=
  datatype = xsd "string" ||
    datatype = "http://www.w3.org/1999/02/22-rdf-syntax-ns#langString".toList

section Terms

variable (codec : Codec) (session : Session)

/-- `encode_term_value`. -/
def encodeTermValue : GroundTermValue → Dict → Int × Dict
  | .namedNode iri, d => d.encode codec session iri .iri
  | .literal value _ (some lang), d => d.encodeLangLiteral codec session value lang
  | .literal value datatype none, d =>
    if isPlainDatatype datatype then d.encode codec session value .literal
    else d.encodeTypedLiteral codec session value datatype
  | .triple s p o, d =>
    let (sId, d) := d.encode codec session s .iri
    let (pId, d) := d.encode codec session p .iri
    let (oId, d) := encodeTermValue o d
    d.encodeQuotedTriple codec session sId pId oId

/-- The terms that are encoded, those inside of quoted triples first, with their ids. -/
def assignedTerms : GroundTermValue → Dict → List (GroundTermValue × Int)
  | .triple s p o, d =>
    let (sId, d₁) := d.encode codec session s .iri
    let (pId, d₂) := d₁.encode codec session p .iri
    (.namedNode s, sId) :: (.namedNode p, pId) ::
      (assignedTerms o d₂ ++ [(.triple s p o, (encodeTermValue codec session (.triple s p o) d).1)])
  | t, d => [(t, (encodeTermValue codec session t d).1)]

/-- The inline ids that the lookup knows. -/
def lookupInline (chrono : Chrono) (value datatype : Text) : Option Int :=
  match Datatype.ofIri datatype with
  | .integer .integer | .integer .long | .integer .int => tryEncodeInteger value
  | .integer _ => none
  | .boolean => tryEncodeBoolean value
  | .dateTime => tryEncodeDatetime chrono value
  | .date => tryEncodeDate chrono value
  | .other => none

/-- `lookup_ground_term_value`. -/
def lookupGroundTermValue : GroundTermValue → Dict → Option Int × Dict
  | .namedNode iri, d => d.lookup codec session iri .iri
  | .literal value _ (some lang), d =>
    d.lookup codec session ('"' :: value ++ "\"@".toList ++ lang) .langLiteral
  | .literal value datatype none, d =>
    if isPlainDatatype datatype then d.lookup codec session value .literal
    else
      match lookupInline codec.chrono value datatype with
      | some id => (some id, d)
      | none => d.lookup codec session (writeTyped value datatype) .typedLiteral
  | .triple s p o, d =>
    Dict.lookupThen (d.lookup codec session s .iri) fun sId d =>
    Dict.lookupThen (d.lookup codec session p .iri) fun pId d =>
    Dict.lookupThen (lookupGroundTermValue o d) fun oId d =>
    d.lookupQuotedTriple codec session sId pId oId

end Terms

/-- A way from terms to hashes and inline ids. -/
structure Reading where
  iriHash : Text → Hash
  inline : Text → Text → Option Int

def encoding (codec : Codec) : Reading where
  iriHash iri := codec.termHash (codec.normalize iri) .iri
  inline := tryEncodeInline codec.chrono

def lookingUp (codec : Codec) : Reading where
  iriHash iri := codec.termHash iri .iri
  inline := lookupInline codec.chrono

/-- The id is the one that a way leads to. -/
def Names (codec : Codec) (way : Reading) (d : Dict) : GroundTermValue → Int → Prop
  | .namedNode iri, id => d.Stored (way.iriHash iri) id
  | .literal value _ (some lang), id =>
    d.Stored (codec.termHash ('"' :: value ++ "\"@".toList ++ lang) .langLiteral) id
  | .literal value datatype none, id =>
    if isPlainDatatype datatype then d.Stored (codec.termHash value .literal) id
    else
      match way.inline value datatype with
      | some n => n = id
      | none => d.Stored (codec.termHash (writeTyped value datatype) .typedLiteral) id
  | .triple s p o, id =>
    ∃ i, d.Stored (way.iriHash s) i ∧ ∃ j, d.Stored (way.iriHash p) j ∧
      ∃ k, Names codec way d o k ∧ d.Stored (codec.quotedTripleHash i j k) id

section Names

variable {codec : Codec} {way : Reading} {session : Session} {d d' : Dict} {t : GroundTermValue}
  {id id' : Int}

theorem Names.mono (more : ∀ hash128 id, d.Stored hash128 id → d'.Stored hash128 id)
    (h : Names codec way d t id) : Names codec way d' t id := by
  induction t generalizing id with
  | namedNode iri => exact more _ _ h
  | literal value datatype language =>
    cases language with
    | some lang => exact more _ _ h
    | none =>
      rw [Names] at h ⊢
      split
      · rename_i plain
        rw [if_pos plain] at h
        exact more _ _ h
      · rename_i typed
        rw [if_neg typed] at h
        cases inlined : way.inline value datatype with
        | some n =>
          rw [inlined] at h
          exact h
        | none =>
          rw [inlined] at h
          exact more _ _ h
  | triple s p o ih =>
    obtain ⟨i, hi, j, hj, k, hk, row⟩ := h
    exact ⟨i, more _ _ hi, j, more _ _ hj, k, ih hk, more _ _ row⟩

theorem Names.unique (h : Names codec way d t id) (h' : Names codec way d t id') : id = id' := by
  induction t generalizing id id' with
  | namedNode iri => exact h.id_unique h'
  | literal value datatype language =>
    cases language with
    | some lang => exact Dict.Stored.id_unique h h'
    | none =>
      rw [Names] at h h'
      split at h
      · rename_i plain
        rw [if_pos plain] at h'
        exact h.id_unique h'
      · rename_i typed
        rw [if_neg typed] at h'
        cases inlined : way.inline value datatype with
        | some n =>
          rw [inlined] at h h'
          exact h.symm.trans h'
        | none =>
          rw [inlined] at h h'
          exact Dict.Stored.id_unique h h'
  | triple s p o ih =>
    obtain ⟨i, hi, j, hj, k, hk, row⟩ := h
    obtain ⟨i', hi', j', hj', k', hk', row'⟩ := h'
    cases hi.id_unique hi'
    cases hj.id_unique hj'
    cases ih hk hk'
    exact row.id_unique row'

theorem names_congr (same : ∀ hash128 id, d'.Stored hash128 id ↔ d.Stored hash128 id) :
    Names codec way d' t id ↔ Names codec way d t id :=
  ⟨Names.mono fun hash128 id => (same hash128 id).mp,
    Names.mono fun hash128 id => (same hash128 id).mpr⟩

end Names

/-- The id of the whole term is the last one. -/
theorem mem_assignedTerms_self (codec : Codec) (session : Session) (t : GroundTermValue)
    (d : Dict) : (t, (encodeTermValue codec session t d).1) ∈ assignedTerms codec session t d := by
  cases t with
  | namedNode iri => exact List.mem_singleton_self _
  | literal value datatype language => exact List.mem_singleton_self _
  | triple s p o =>
    exact List.mem_cons_of_mem _ (List.mem_cons_of_mem _
      (List.mem_append_right _ (List.mem_singleton_self _)))

theorem forall_assignedTerms_triple {codec : Codec} {session : Session} {s p : Text}
    {o : GroundTermValue} {d : Dict} {P : GroundTermValue × Int → Prop} :
    (∀ a ∈ assignedTerms codec session (.triple s p o) d, P a) ↔
      let subject := d.encode codec session s .iri
      let predicate := subject.2.encode codec session p .iri
      P (.namedNode s, subject.1) ∧ P (.namedNode p, predicate.1) ∧
        (∀ a ∈ assignedTerms codec session o predicate.2, P a) ∧
        P (.triple s p o, (encodeTermValue codec session (.triple s p o) d).1) := by
  rw [assignedTerms, List.forall_mem_cons, List.forall_mem_cons, List.forall_mem_append,
    List.forall_mem_singleton]

section Encode

variable {codec : Codec} {session : Session} {d : Dict}

theorem encode_iri_spec (sound : d.Sound) (numbered : d.Numbered) (iri : Text) :
    Dict.Extends d (d.encode codec session iri .iri).2 ∧
      (d.encode codec session iri .iri).2.Numbered ∧
      (d.encode codec session iri .iri).2.Stored ((encoding codec).iriHash iri)
        (d.encode codec session iri .iri).1 := by
  obtain ⟨extended, row⟩ := sound.encode codec session iri .iri
  exact ⟨extended, numbered.encode codec session iri .iri, row⟩

/-- Encoding gives every term its id, also those inside of quoted triples. -/
theorem encodeTermValue_spec (sound : d.Sound) (numbered : d.Numbered) (t : GroundTermValue) :
    Dict.Extends d (encodeTermValue codec session t d).2 ∧
      (encodeTermValue codec session t d).2.Numbered ∧
      ∀ a ∈ assignedTerms codec session t d,
        Names codec (encoding codec) (encodeTermValue codec session t d).2 a.1 a.2 := by
  induction t generalizing d with
  | namedNode iri =>
    obtain ⟨extended, numbered', row⟩ := @encode_iri_spec codec session _ sound numbered iri
    exact ⟨extended, numbered', List.forall_mem_singleton.mpr row⟩
  | literal value datatype language =>
    cases language with
    | some lang =>
      obtain ⟨extended, row⟩ := sound.encodeTiers session
        (codec.termHash ('"' :: value ++ "\"@".toList ++ lang) .langLiteral)
        ⟨value, .langLiteral, none, some lang, none⟩
      exact ⟨extended, numbered.encodeTiers session _ _, List.forall_mem_singleton.mpr row⟩
    | none =>
      have alone : assignedTerms codec session (.literal value datatype none) d =
          [(.literal value datatype none,
            (encodeTermValue codec session (.literal value datatype none) d).1)] := rfl
      rw [alone, List.forall_mem_singleton, encodeTermValue, Names]
      by_cases plain : isPlainDatatype datatype = true
      · rw [if_pos plain, if_pos plain]
        obtain ⟨extended, row⟩ := sound.encode codec session value .literal
        exact ⟨extended, numbered.encode codec session value .literal, row⟩
      · rw [if_neg plain, if_neg plain, Dict.encodeTypedLiteral]
        show _ ∧ _ ∧ (match tryEncodeInline codec.chrono value datatype with
          | some n => _
          | none => _)
        cases inlined : tryEncodeInline codec.chrono value datatype with
        | some n => exact ⟨.refl sound, numbered, rfl⟩
        | none =>
          obtain ⟨extended, row⟩ := sound.encodeTiers session
            (codec.termHash (writeTyped value datatype) .typedLiteral)
            ⟨value, .typedLiteral, some datatype, none, none⟩
          exact ⟨extended, numbered.encodeTiers session _ _, row⟩
  | triple s p o ih =>
    obtain ⟨extended₁, numbered₁, row₁⟩ := @encode_iri_spec codec session _ sound numbered s
    obtain ⟨extended₂, numbered₂, row₂⟩ := @encode_iri_spec codec session _ extended₁.sound
      numbered₁ p
    obtain ⟨extended₃, numbered₃, named⟩ := ih extended₂.sound numbered₂
    have own := named _ (mem_assignedTerms_self codec session o _)
    simp only [forall_assignedTerms_triple, encodeTermValue, Dict.encodeQuotedTriple]
    obtain ⟨extended₄, row₄⟩ := extended₃.sound.encodeTiers session _ _
    refine ⟨extended₁.trans (extended₂.trans (extended₃.trans extended₄)),
      numbered₃.encodeTiers session _ _, ?_⟩
    have more := fun hash128 id => @Dict.Extends.stored _ _ hash128 id extended₄
    have subject := extended₃.stored (extended₂.stored row₁)
    have predicate := extended₃.stored row₂
    refine ⟨more _ _ subject, more _ _ predicate, fun a ha => (named a ha).mono more, ?_⟩
    exact ⟨_, more _ _ subject, _, more _ _ predicate, _, own.mono more, row₄⟩

/-- Looking up finds what the hashes of the lookup lead to. -/
theorem lookupGroundTermValue_spec (sound : d.Sound) (t : GroundTermValue) :
    Dict.Answers d (lookupGroundTermValue codec session t d)
      (Names codec (lookingUp codec) d t) := by
  induction t generalizing d with
  | namedNode iri => exact sound.lookup_spec
  | literal value datatype language =>
    cases language with
    | some lang => exact sound.lookup_spec
    | none =>
      rw [lookupGroundTermValue]
      by_cases plain : isPlainDatatype datatype = true
      · rw [if_pos plain]
        exact sound.lookup_spec.congr fun id => by rw [Names, if_pos plain]
      · rw [if_neg plain]
        cases inlined : lookupInline codec.chrono value datatype with
        | some n =>
          refine ⟨fun id => ?_, sound, rfl, rfl⟩
          simp only [Names, if_neg plain, lookingUp, inlined, Option.some.injEq]
        | none =>
          refine sound.lookup_spec.congr fun id => ?_
          simp only [Names, if_neg plain, lookingUp, inlined]
  | triple s p o ih =>
    rw [lookupGroundTermValue]
    have subject := @Dict.Sound.lookup_spec d codec session s .iri sound
    show Dict.Answers d _ fun id => ∃ i, d.Stored (codec.termHash s .iri) i ∧
      ∃ j, d.Stored (codec.termHash p .iri) j ∧ ∃ k, Names codec (lookingUp codec) d o k ∧
        d.Stored (codec.quotedTripleHash i j k) id
    refine subject.andThen fun i => ?_
    have predicate := @Dict.Sound.lookup_spec _ codec session p .iri subject.same.sound
    have object := ih predicate.same.sound
    have same₂ := subject.same.trans predicate.same
    refine (predicate.congr fun j => subject.same.stored).andThen fun j => ?_
    refine (object.congr fun k => names_congr fun _ _ => same₂.stored).andThen fun k => ?_
    exact object.same.sound.lookupQuotedTriple_spec.congr
      fun id => (same₂.trans object.same).stored

end Encode

/-- An integer that is inlined, of a datatype that the lookup does not know. -/
def OnlyEncoded (value datatype : Text) : Prop :=
  ∃ t : IntegerType, Datatype.ofIri datatype = .integer t ∧ t ∉ [.integer, .long, .int] ∧
    (tryEncodeInteger value).isSome = true

/-- IRIs have the hash of their normal form, and integers are of a datatype that the lookup
knows. -/
def GroundTermValue.LooksUp (codec : Codec) : GroundTermValue → Prop
  | .namedNode iri => codec.termHash (codec.normalize iri) .iri = codec.termHash iri .iri
  | .literal _ _ (some _) => True
  | .literal value datatype none => ¬ OnlyEncoded value datatype
  | .triple s p o =>
    codec.termHash (codec.normalize s) .iri = codec.termHash s .iri ∧
      codec.termHash (codec.normalize p) .iri = codec.termHash p .iri ∧ o.LooksUp codec

section LooksUp

variable {codec : Codec} {session : Session} {d d₀ : Dict} {value datatype : Text}

theorem lookupInline_of_onlyEncoded {chrono : Chrono} (h : OnlyEncoded value datatype) :
    lookupInline chrono value datatype = none ∧
      ∃ n < 0, tryEncodeInline chrono value datatype = some n := by
  obtain ⟨t, type, unknown, parses⟩ := h
  obtain ⟨n, hn⟩ := Option.isSome_iff_exists.mp parses
  obtain ⟨v, -, -, packed⟩ := tryEncodeInteger_eq_some.mp hn
  have negative : n < 0 := (packSigned_eq_some (by decide) packed).1
  rw [lookupInline, tryEncodeInline, type]
  refine ⟨?_, n, negative, hn⟩
  cases t with
  | integer | long | int => exact absurd (by decide) unknown
  | _ => rfl

theorem lookupInline_of_not_onlyEncoded {chrono : Chrono} (h : ¬ OnlyEncoded value datatype) :
    lookupInline chrono value datatype = tryEncodeInline chrono value datatype := by
  rw [lookupInline, tryEncodeInline]
  cases type : Datatype.ofIri datatype with
  | integer t =>
    by_cases unknown : t ∉ [.integer, .long, .int]
    · have fails : tryEncodeInteger value = none := by
        rw [← Option.not_isSome_iff_eq_none]
        exact fun parses => h ⟨t, type, unknown, parses⟩
      rw [fails]
      cases t <;> rfl
    · cases t with
      | integer | long | int => rfl
      | _ => exact absurd (by decide) unknown
  | _ => rfl

theorem not_onlyEncoded_of_plain (plain : isPlainDatatype datatype = true) :
    ¬ OnlyEncoded value datatype := by
  have other : Datatype.ofIri datatype = .other := by
    rw [isPlainDatatype, Bool.or_eq_true, decide_eq_true_iff, decide_eq_true_iff] at plain
    obtain rfl | rfl := plain <;> decide
  rintro ⟨t, type, -⟩
  rw [other] at type
  cases type

theorem stored_iff_of_stored (numbered : d.Numbered) {hash128 other : Hash} {id : Int}
    (row : d.Stored hash128 id) : d.Stored other id ↔ hash128 = other := by
  constructor
  · exact fun row' => numbered.hash_unique row row'
  · rintro rfl
    exact row

/-- The ids that were assigned are found again just if the two ways agree on the term. -/
theorem found_iff_looksUp (numbered : d.Numbered) {t : GroundTermValue}
    (named : ∀ a ∈ assignedTerms codec session t d₀, Names codec (encoding codec) d a.1 a.2) :
    (∀ a ∈ assignedTerms codec session t d₀, Names codec (lookingUp codec) d a.1 a.2) ↔
      t.LooksUp codec := by
  induction t generalizing d₀ with
  | namedNode iri =>
    have row := List.forall_mem_singleton.mp named
    exact List.forall_mem_singleton.trans (stored_iff_of_stored numbered row)
  | literal value datatype language =>
    have own := List.forall_mem_singleton.mp named
    refine List.forall_mem_singleton.trans ?_
    cases language with
    | some lang => exact iff_of_true own trivial
    | none =>
      rw [Names] at own ⊢
      by_cases plain : isPlainDatatype datatype = true
      · rw [if_pos plain] at own ⊢
        exact iff_of_true own (not_onlyEncoded_of_plain plain)
      · rw [if_neg plain] at own ⊢
        rw [GroundTermValue.LooksUp]
        simp only [encoding, lookingUp] at own ⊢
        by_cases onlyEncoded : OnlyEncoded value datatype
        · obtain ⟨missing, n, negative, inlined⟩ :=
            @lookupInline_of_onlyEncoded value datatype codec.chrono onlyEncoded
          rw [inlined] at own
          rw [missing]
          refine iff_of_false ?_ (not_not_intro onlyEncoded)
          rintro ⟨r, hr, -, same⟩
          have positive := (numbered.below r hr).1
          rw [same] at positive
          have : n = _ := own
          omega
        · rw [lookupInline_of_not_onlyEncoded onlyEncoded]
          exact iff_of_true own onlyEncoded
  | triple s p o ih =>
    rw [forall_assignedTerms_triple] at named ⊢
    obtain ⟨subject, predicate, object, whole⟩ := named
    rw [GroundTermValue.LooksUp, ← ih object]
    refine ⟨fun found => ⟨?_, ?_, found.2.2.1⟩, ?_⟩
    · exact (stored_iff_of_stored numbered subject).mp found.1
    · exact (stored_iff_of_stored numbered predicate).mp found.2.1
    · rintro ⟨hs, hp, ho⟩
      have subject' := (stored_iff_of_stored numbered subject).mpr hs
      have predicate' := (stored_iff_of_stored numbered predicate).mpr hp
      refine ⟨subject', predicate', ho, ?_⟩
      obtain ⟨i, hi, j, hj, k, hk, row⟩ := whole
      have last := mem_assignedTerms_self codec session o
        ((d₀.encode codec session s .iri).2.encode codec session p .iri).2
      have own : Names codec (lookingUp codec) d o k := hk.unique (object _ last) ▸ ho _ last
      exact ⟨i, (stored_iff_of_stored numbered hi).mpr hs, j,
        (stored_iff_of_stored numbered hj).mpr hp, k, own, row⟩

end LooksUp

/-- The dictionary and the triples. -/
structure TripleStore where
  dict : Dict
  store : Store

section Updates

variable (codec : Codec) (session : Session) (q : GroundQuad)

/-- One quad of `INSERT DATA`, with its ids. -/
def insertData (db : TripleStore) : Quad × TripleStore :=
  let (s, d) := db.dict.encode codec session q.subject .iri
  let (p, d) := d.encode codec session q.predicate .iri
  let (o, d) := encodeTermValue codec session q.object d
  let (g, d) :=
    match q.graphName with
    | none => (0, d)
    | some iri => d.encode codec session iri .iri
  (⟨s, p, o, g⟩, ⟨d, (Store.insertEncodedTriple session ⟨s, p, o, g⟩ db.store).2⟩)

/-- The terms of the quad and of its quoted triples, with the ids that `insertData` gives. -/
def assignedData (d : Dict) : List (GroundTermValue × Int) :=
  let (s, d₁) := d.encode codec session q.subject .iri
  let (p, d₂) := d₁.encode codec session q.predicate .iri
  let d₃ := (encodeTermValue codec session q.object d₂).2
  (.namedNode q.subject, s) :: (.namedNode q.predicate, p) ::
    (assignedTerms codec session q.object d₂ ++
      q.graphName.toList.map fun iri => (.namedNode iri, (d₃.encode codec session iri .iri).1))

/-- The id that `DELETE DATA` takes for a graph; `-1` stands for none. -/
def lookupGraphName (graphName : Option Text) (d : Dict) : Int × Dict :=
  match graphName with
  | none => (0, d)
  | some iri =>
    let (g, d) := d.lookup codec session iri .iri
    (g.getD (-1), d)

/-- One quad of `DELETE DATA`. -/
def deleteData (db : TripleStore) : TripleStore :=
  let (s, d) := db.dict.lookup codec session q.subject .iri
  let (p, d) := d.lookup codec session q.predicate .iri
  let (o, d) := lookupGroundTermValue codec session q.object d
  let (g, d) := lookupGraphName codec session q.graphName d
  match s, p, o with
  | some s, some p, some o =>
    if 0 ≤ g then ⟨d, (Store.deleteTripleByIds session ⟨s, p, o, g⟩ db.store).2⟩
    else ⟨d, db.store⟩
  | _, _, _ => ⟨d, db.store⟩

end Updates

/-- What may happen before and between the two updates. -/
inductive DataEvent where
  | insertData (session : Session) (q : GroundQuad)
  | deleteData (session : Session) (q : GroundQuad)
  /-- Any other use of the dictionary. -/
  | encode (session : Session) (t : RdfTerm)
  | lookup (session : Session) (term : Text) (kind : Kind)
  /-- Any other operation on the triples. -/
  | store (op : Op) (allowed : op.NotDrop)

def DataEvent.apply (codec : Codec) (db : TripleStore) : DataEvent → TripleStore
  | .insertData session q => (Sparql.insertData codec session q db).2
  | .deleteData session q => Sparql.deleteData codec session q db
  | .encode session t => { db with dict := (db.dict.encodeRdfTerm codec session t).2 }
  | .lookup session term kind => { db with dict := (db.dict.lookup codec session term kind).2 }
  | .store op _ => { db with store := op.apply db.store }

namespace TripleStore

def initial (ready : Bool) (dbOid : BitVec 32) : TripleStore := ⟨.initial ready dbOid, .initial⟩

def run (codec : Codec) (events : List DataEvent) (db : TripleStore) : TripleStore :=
  events.foldl (DataEvent.apply codec) db

/-- The caches are right, ids are not used twice, and the tables are in order. -/
structure Good (db : TripleStore) : Prop where
  sound : db.dict.Sound
  numbered : db.dict.Numbered
  inv : db.store.Inv

theorem good_initial (ready : Bool) (dbOid : BitVec 32) : (initial ready dbOid).Good :=
  ⟨Dict.sound_initial ready dbOid, Dict.numbered_initial ready dbOid, Store.inv_initial⟩

/-- A state of a run and a later one. -/
structure Later (db db' : TripleStore) : Prop where
  good : db'.Good
  rows : ∀ r ∈ db.dict.rows.rows, r ∈ db'.dict.rows.rows

variable {codec : Codec} {session : Session} {q : GroundQuad} {db db' : TripleStore}

theorem Later.trans {db'' : TripleStore} (first : Later db db') (second : Later db' db'') :
    Later db db'' :=
  ⟨second.good, fun r hr => second.rows r (first.rows r hr)⟩

/-- Inserting gives all terms of the quad their ids. -/
theorem Good.insertData (h : db.Good) :
    Later db (Sparql.insertData codec session q db).2 ∧
      ∀ a ∈ assignedData codec session q db.dict, Names codec (encoding codec)
        (Sparql.insertData codec session q db).2.dict a.1 a.2 := by
  obtain ⟨extended₁, numbered₁, row₁⟩ := @encode_iri_spec codec session _ h.sound h.numbered
    q.subject
  obtain ⟨extended₂, numbered₂, row₂⟩ := @encode_iri_spec codec session _ extended₁.sound
    numbered₁ q.predicate
  obtain ⟨extended₃, numbered₃, named⟩ := @encodeTermValue_spec codec session _ extended₂.sound
    numbered₂ q.object
  have extended := extended₁.trans (extended₂.trans extended₃)
  have subject := extended₃.stored (extended₂.stored row₁)
  have predicate := extended₃.stored row₂
  cases graph : q.graphName with
  | none =>
    simp only [Sparql.insertData, assignedData, graph]
    refine ⟨⟨⟨extended.sound, numbered₃, h.inv.insertEncodedTriple⟩, extended.rows⟩, ?_⟩
    rw [List.forall_mem_cons, List.forall_mem_cons, List.forall_mem_append]
    exact ⟨subject, predicate, named, fun a ha => absurd ha List.not_mem_nil⟩
  | some iri =>
    obtain ⟨extended₄, numbered₄, row₄⟩ := @encode_iri_spec codec session _ extended₃.sound
      numbered₃ iri
    have more := fun hash128 id => @Dict.Extends.stored _ _ hash128 id extended₄
    simp only [Sparql.insertData, assignedData, graph]
    refine ⟨⟨⟨extended₄.sound, numbered₄, h.inv.insertEncodedTriple⟩,
      (extended.trans extended₄).rows⟩, ?_⟩
    rw [List.forall_mem_cons, List.forall_mem_cons, List.forall_mem_append]
    refine ⟨more _ _ subject, more _ _ predicate, fun a ha => (named a ha).mono more, ?_⟩
    exact List.forall_mem_singleton.mpr row₄

theorem sameRows_lookupGraphName {d : Dict} (sound : d.Sound) (graphName : Option Text) :
    Dict.SameRows d (lookupGraphName codec session graphName d).2 := by
  cases graphName with
  | none => exact ⟨sound, rfl, rfl⟩
  | some iri => exact sound.lookup_spec.same

/-- Deleting changes the caches, and the triples by at most one delete. -/
theorem Good.deleteData (h : db.Good) : Later db (Sparql.deleteData codec session q db) := by
  have subject := @Dict.Sound.lookup_spec _ codec session q.subject .iri h.sound
  have predicate := @Dict.Sound.lookup_spec _ codec session q.predicate .iri subject.same.sound
  have object := @lookupGroundTermValue_spec codec session _ predicate.same.sound q.object
  have graph := @sameRows_lookupGraphName codec session _ object.same.sound q.graphName
  have same := subject.same.trans (predicate.same.trans (object.same.trans graph))
  have good (st : Store) (inv : st.Inv) : Later db ⟨_, st⟩ :=
    ⟨⟨same.sound, same.numbered h.numbered, inv⟩, same.extends.rows⟩
  rw [Sparql.deleteData]
  dsimp only
  split
  · split
    · exact good _ h.inv.deleteQuad
    · exact good _ h.inv
  · exact good _ h.inv

/-- If all terms are found, the quad with their ids is deleted. -/
theorem Good.store_deleteData (h : db.Good) {quad : Quad}
    (subject : Names codec (lookingUp codec) db.dict (.namedNode q.subject) quad.s)
    (predicate : Names codec (lookingUp codec) db.dict (.namedNode q.predicate) quad.p)
    (object : Names codec (lookingUp codec) db.dict q.object quad.o)
    (graph : match q.graphName with
      | none => quad.g = 0
      | some iri => Names codec (lookingUp codec) db.dict (.namedNode iri) quad.g) :
    (Sparql.deleteData codec session q db).store =
      (Store.deleteTripleByIds session quad db.store).2 := by
  have first := @Dict.Sound.lookup_spec _ codec session q.subject .iri h.sound
  have second := @Dict.Sound.lookup_spec _ codec session q.predicate .iri first.same.sound
  have third := @lookupGroundTermValue_spec codec session _ second.same.sound q.object
  have same₂ := first.same.trans second.same
  have hs := (first.answer quad.s).mpr subject
  have hp := (second.answer quad.p).mpr (first.same.stored.mpr predicate)
  have ho := (third.answer quad.o).mpr ((names_congr fun _ _ => same₂.stored).mpr object)
  rw [Sparql.deleteData]
  dsimp only
  rw [hs, hp, ho]
  dsimp only
  cases named : q.graphName with
  | none =>
    rw [named] at graph
    rw [lookupGraphName, if_pos (le_refl 0), ← graph]
  | some iri =>
    rw [named] at graph
    have fourth := @Dict.Sound.lookup_spec _ codec session iri .iri third.same.sound
    have row : db.dict.Stored (codec.termHash iri .iri) quad.g := graph
    have hg := (fourth.answer quad.g).mpr ((same₂.trans third.same).stored.mpr row)
    obtain ⟨r, hr, -, same⟩ := row
    have positive := (h.numbered.below r hr).1
    have found : (lookupGraphName codec session (some iri) (lookupGroundTermValue codec session
        q.object ((db.dict.lookup codec session q.subject .iri).2.lookup codec session q.predicate
          .iri).2).2).1 = quad.g := congrArg (Option.getD · (-1)) hg
    rw [found, if_pos (by omega)]

theorem Good.apply (h : db.Good) (e : DataEvent) : Later db (e.apply codec db) := by
  cases e with
  | insertData session q => exact h.insertData.1
  | deleteData session q => exact h.deleteData
  | encode session t =>
    have extended := (h.sound.encodeRdfTerm codec session t).1
    exact ⟨⟨extended.sound, h.numbered.encodeRdfTerm codec session t, h.inv⟩, extended.rows⟩
  | lookup session term kind =>
    have looked := @Dict.Sound.lookup_spec _ codec session term kind h.sound
    exact ⟨⟨looked.same.sound, looked.same.numbered h.numbered, h.inv⟩, looked.same.extends.rows⟩
  | store op allowed => exact ⟨⟨h.sound, h.numbered, h.inv.apply allowed⟩, fun r hr => hr⟩

theorem Good.run (h : db.Good) (events : List DataEvent) : Later db (run codec events db) := by
  induction events generalizing db with
  | nil => exact ⟨h, fun r hr => hr⟩
  | cons e events ih =>
    have step := @Good.apply codec _ h e
    exact step.trans (ih step.good)

end TripleStore

/-- A quad is shown after its deletion only if it was there twice. -/
theorem visible_deleteTripleByIds_iff {st : Store} (h : st.Inv) {session : Session} {q : Quad} :
    (Store.deleteTripleByIds session q st).2.Visible q ↔ MainCopy st q ∧ OtherCopy st q := by
  have inv : (Store.deleteQuad session q st).2.Inv := h.deleteQuad
  have places := visible_iff_placesOf (q := q) inv
  simp only [placesOf, Bool.or_eq_true, decide_eq_true_eq] at places
  rw [mainCopy_deleteQuad h.toLayout, otherCopy_deleteQuad h.toLayout] at places
  refine places.trans ?_
  simp

/-- The ids that were assigned are found, and the quad is gone. -/
structure Undone (codec : Codec) (session : Session) (q : GroundQuad)
    (ids : List (GroundTermValue × Int)) (quad : Quad) (db : TripleStore) : Prop where
  found : ∀ a ∈ ids, (lookupGroundTermValue codec session a.1 db.dict).1 = some a.2
  removed : ¬ (deleteData codec session q db).store.Visible quad

/-- The terms of the quad are found again. -/
structure GroundQuad.LooksUp (codec : Codec) (q : GroundQuad) : Prop where
  subject : GroundTermValue.LooksUp codec (.namedNode q.subject)
  predicate : GroundTermValue.LooksUp codec (.namedNode q.predicate)
  object : q.object.LooksUp codec
  graphName : ∀ iri ∈ q.graphName, GroundTermValue.LooksUp codec (.namedNode iri)

section Assigned

variable {codec : Codec} {session : Session} {q : GroundQuad} {db : TripleStore}
  {P : GroundTermValue × Int → Prop}

theorem forall_assignedData :
    (∀ a ∈ assignedData codec session q db.dict, P a) ↔
      P (.namedNode q.subject, (insertData codec session q db).1.s) ∧
        P (.namedNode q.predicate, (insertData codec session q db).1.p) ∧
        (∀ a ∈ assignedTerms codec session q.object ((db.dict.encode codec session q.subject
          .iri).2.encode codec session q.predicate .iri).2, P a) ∧
        ∀ iri ∈ q.graphName, P (.namedNode iri, (insertData codec session q db).1.g) := by
  rw [assignedData, List.forall_mem_cons, List.forall_mem_cons, List.forall_mem_append]
  refine and_congr Iff.rfl (and_congr Iff.rfl (and_congr Iff.rfl ?_))
  rw [insertData]
  cases q.graphName with
  | none => simp
  | some iri => simp

/-- The ids are found again just if the terms are. -/
theorem found_iff_quad_looksUp {d : Dict} (numbered : d.Numbered)
    (named : ∀ a ∈ assignedData codec session q db.dict, Names codec (encoding codec) d a.1 a.2) :
    (∀ a ∈ assignedData codec session q db.dict, Names codec (lookingUp codec) d a.1 a.2) ↔
      q.LooksUp codec := by
  rw [forall_assignedData] at named ⊢
  obtain ⟨subject, predicate, object, graph⟩ := named
  rw [found_iff_looksUp numbered object]
  constructor
  · rintro ⟨hs, hp, ho, hg⟩
    refine ⟨(stored_iff_of_stored numbered subject).mp hs,
      (stored_iff_of_stored numbered predicate).mp hp, ho, fun iri member => ?_⟩
    exact (stored_iff_of_stored numbered (graph iri member)).mp (hg iri member)
  · rintro ⟨hs, hp, ho, hg⟩
    refine ⟨(stored_iff_of_stored numbered subject).mpr hs,
      (stored_iff_of_stored numbered predicate).mpr hp, ho, fun iri member => ?_⟩
    exact (stored_iff_of_stored numbered (graph iri member)).mpr (hg iri member)

/-- A quad whose terms are found is the one that is deleted. -/
theorem store_deleteData_of_found {db' : TripleStore} (h : db'.Good)
    {session' : Session}
    (found : ∀ a ∈ assignedData codec session q db.dict,
      Names codec (lookingUp codec) db'.dict a.1 a.2) :
    (deleteData codec session' q db').store =
      (Store.deleteTripleByIds session' (insertData codec session q db).1 db'.store).2 := by
  rw [forall_assignedData] at found
  obtain ⟨subject, predicate, object, graph⟩ := found
  refine h.store_deleteData subject predicate (object _ (mem_assignedTerms_self _ _ _ _)) ?_
  cases named : q.graphName with
  | none =>
    show (insertData codec session q db).1.g = 0
    rw [insertData, named]
  | some iri => exact graph iri named

end Assigned

/-- After any run, an insertion and any further run, `DELETE DATA` finds the ids and removes the
quad just if all terms are found again and the quad is not there twice. -/
theorem deleteData_undoes_iff (codec : Codec) (ready : Bool) (dbOid : BitVec 32)
    (before between : List DataEvent) (session session' : Session) (q : GroundQuad) :
    let start := TripleStore.run codec before (.initial ready dbOid)
    let inserted := insertData codec session q start
    let db := TripleStore.run codec between inserted.2
    Undone codec session' q (assignedData codec session q start.dict) inserted.1 db ↔
      q.LooksUp codec ∧ ¬ (MainCopy db.store inserted.1 ∧ OtherCopy db.store inserted.1) := by
  intro start inserted db
  have good := (@TripleStore.Good.run codec _ (TripleStore.good_initial ready dbOid) before).good
  obtain ⟨later, assigned⟩ := @TripleStore.Good.insertData codec session q _ good
  have later' := @TripleStore.Good.run codec _ later.good between
  have named : ∀ a ∈ assignedData codec session q start.dict,
      Names codec (encoding codec) db.dict a.1 a.2 := by
    intro a ha
    refine (assigned a ha).mono fun hash128 id => ?_
    rintro ⟨r, hr, row⟩
    exact ⟨r, later'.rows r hr, row⟩
  have found : (∀ a ∈ assignedData codec session q start.dict,
      (lookupGroundTermValue codec session' a.1 db.dict).1 = some a.2) ↔ q.LooksUp codec := by
    rw [← found_iff_quad_looksUp later'.good.numbered named]
    refine forall₂_congr fun a _ => ?_
    exact (lookupGroundTermValue_spec later'.good.sound a.1).answer a.2
  have removed (looksUp : q.LooksUp codec) :
      (deleteData codec session' q db).store.Visible inserted.1 ↔
        MainCopy db.store inserted.1 ∧ OtherCopy db.store inserted.1 := by
    have names := (found_iff_quad_looksUp later'.good.numbered named).mpr looksUp
    rw [store_deleteData_of_found later'.good names]
    exact visible_deleteTripleByIds_iff later'.good.inv
  constructor
  · rintro ⟨ids, gone⟩
    have looksUp := found.mp ids
    exact ⟨looksUp, fun twice => gone ((removed looksUp).mpr twice)⟩
  · rintro ⟨looksUp, once⟩
    exact ⟨found.mpr looksUp, fun shown => once ((removed looksUp).mp shown)⟩

/-- A quad whose object is the short integer 5. -/
def shortQuad : GroundQuad := ⟨['s'], ['p'], .literal ['5'] (xsd "short") none, none⟩

/-- The object is inlined, and the lookup searches the table for it. -/
theorem not_deleteData_undoes :
    ¬ ∀ (codec : Codec) (ready : Bool) (dbOid : BitVec 32) (session session' : Session)
      (q : GroundQuad), Undone codec session' q
        (assignedData codec session q (TripleStore.initial ready dbOid).dict)
        (insertData codec session q (.initial ready dbOid)).1
        (insertData codec session q (.initial ready dbOid)).2 := by
  intro promised
  have undone := promised Dict.letterCodec true 5 0 0 shortQuad
  obtain ⟨-, -, objects, -⟩ := forall_assignedData.mp undone.found
  have found := objects _ (mem_assignedTerms_self _ _ _ _)
  have missing : (lookupGroundTermValue Dict.letterCodec 0 shortQuad.object
      (insertData Dict.letterCodec 0 shortQuad (.initial true 5)).2.dict).1 = none := by
    decide +kernel
  rw [missing] at found
  cases found

end Sparql

end PgRipple
