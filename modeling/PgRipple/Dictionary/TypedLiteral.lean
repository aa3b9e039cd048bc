import PgRipple.Dictionary.Inline
import PgRipple.Lib.UniqueTable
import Mathlib.Algebra.Order.Ring.Int

/-!
# Identity of typed literals

`encode_typed_literal` gives an inline id to a literal that has one and a dictionary id
to every other literal. A dictionary row is found by the hash of the literal's canonical
text together with its kind; the hash is taken to be injective, so text and kind
themselves are the key. The two encode caches answer before the table does. What they
answer was given to the same key at some time, although the row may be gone.

Two literals with one id are told apart by nothing that reads ids.
-/

namespace PgRipple.Dictionary

/-- A typed literal; an IRI contains no angle bracket. -/
structure TypedLiteral where
  lexical : Text
  datatype : Text
  isIri : '<' ∉ datatype

inductive Value
  | integer (v : Int)
  | boolean (b : Bool)
  | instant (seconds : Int) (nanoseconds : Nat)
  | day (n : Int)
  deriving DecidableEq, Repr

namespace TypedLiteral

/-- What is hashed: the canonical text and the kind. -/
def key (l : TypedLiteral) : Text × Kind := (writeTyped l.lexical l.datatype, .typedLiteral)

section Value

variable (chrono : Chrono)

/-- The value of a literal of one of the datatypes above, if its text stands for one. -/
def value (l : TypedLiteral) : Option Value :=
  match Datatype.ofIri l.datatype with
  | .integer t =>
    match parseInteger (trim l.lexical) with
    | some v => if t.InValueSpace v then some (.integer v) else none
    | none => none
  | .boolean => (parseBoolean (trim l.lexical)).map .boolean
  | .dateTime => (chrono.parseDateTime (trim l.lexical)).map fun (s, n) => .instant s n
  | .date => (chrono.parseDate (trim l.lexical)).map .day
  | .other => none

/-- The same datatype, and the same value in its value space. A literal without a value
is only the same as itself. -/
def Same (l₁ l₂ : TypedLiteral) : Prop :=
  l₁.datatype = l₂.datatype ∧
    (l₁.lexical = l₂.lexical ∨
      ∃ v, l₁.value chrono = some v ∧ l₂.value chrono = some v)

end Value

end TypedLiteral

theorem append_cons_inj {c : Char} {a a' b b' : Text} (hb : c ∉ b) (hb' : c ∉ b')
    (h : a ++ c :: b = a' ++ c :: b') : a = a' ∧ b = b' := by
  simp only [List.append_eq_append_iff, List.cons_eq_append_iff, List.cons_eq_cons] at h
  rcases h with ⟨m, rfl, ⟨rfl, -, rfl⟩ | ⟨n, rfl, rfl⟩⟩ |
    ⟨m, rfl, ⟨rfl, -, rfl⟩ | ⟨n, rfl, rfl⟩⟩ <;>
    simp_all

/-- The last angle bracket separates the value from the datatype. -/
theorem writeTyped_inj {v v' d d' : Text} (hd : '<' ∉ d) (hd' : '<' ∉ d')
    (h : writeTyped v d = writeTyped v' d') : v = v' ∧ d = d' := by
  have split (v d : Text) : writeTyped v d = '"' :: (v ++ ['"', '^', '^']) ++ '<'
      :: (d ++ ['>']) := by
    simp [writeTyped]
  rw [split, split] at h
  have notIn (d : Text) (hd : '<' ∉ d) : '<' ∉ d ++ ['>'] := by
    simpa using hd
  obtain ⟨front, back⟩ := append_cons_inj (notIn d hd) (notIn d' hd') h
  exact ⟨List.append_cancel_right (List.cons.inj front).2, List.append_cancel_right back⟩

theorem TypedLiteral.key_inj {l₁ l₂ : TypedLiteral} (h : l₁.key = l₂.key) : l₁ = l₂ := by
  have parts := writeTyped_inj l₁.isIri l₂.isIri (Prod.mk.inj h).1
  cases l₁
  cases l₂
  cases parts.1
  cases parts.2
  rfl

/-- A row of the dictionary table; the hash columns are the key. -/
structure Row where
  id : Int
  key : Text × Kind
  value : Text
  datatype : Option Text
  lang : Option Text
  deriving DecidableEq

/-- The row that is inserted for a typed literal. -/
def TypedLiteral.row (l : TypedLiteral) (id : Int) : Row where
  id := id
  key := l.key
  value := l.lexical
  datatype := some l.datatype
  lang := none

/-- The dictionary table with the caches of one backend. `issued` is every row there ever
was: rows may disappear, but their ids are not given out again. -/
structure Encoder where
  rows : UniqueTable Row.key
  issued : UniqueTable Row.id
  nextId : Int
  shared : Text × Kind → Option Int
  backend : Text × Kind → Option Int
  nextId_pos : 0 < nextId
  rows_issued : ∀ r ∈ rows.rows, r ∈ issued.rows
  issued_bounds : ∀ r ∈ issued.rows, 0 < r.id ∧ r.id < nextId
  /-- Rows of typed literals come from `encode_typed_literal`. -/
  typed : ∀ r ∈ issued.rows, r.key.2 = .typedLiteral → ∃ l : TypedLiteral, r = l.row r.id
  shared_issued : ∀ k i, shared k = some i → ∃ r ∈ issued.rows, r.key = k ∧ r.id = i
  backend_issued : ∀ k i, backend k = some i → ∃ r ∈ issued.rows, r.key = k ∧ r.id = i

namespace Encoder

/-- The empty dictionary. -/
def initial : Encoder where
  rows := .empty Row.key
  issued := .empty Row.id
  nextId := 1
  shared := fun _ => none
  backend := fun _ => none
  nextId_pos := by decide
  rows_issued := by simp
  issued_bounds := by simp
  typed := by simp
  shared_issued := by simp
  backend_issued := by simp

theorem issued_update {issued : UniqueTable Row.id} {cache : Text × Kind → Option Int} {r : Row}
    (hr : r ∈ issued.rows)
    (cached : ∀ k i, cache k = some i → ∃ r ∈ issued.rows, r.key = k ∧ r.id = i)
    (k : Text × Kind) (i : Int) (h : Function.update cache r.key (some r.id) k = some i) :
    ∃ r ∈ issued.rows, r.key = k ∧ r.id = i := by
  by_cases same : k = r.key
  · subst same
    rw [Function.update_self] at h
    exact ⟨r, hr, rfl, Option.some.inj h⟩
  · rw [Function.update_of_ne same] at h
    exact cached k i h

/-- Put an id that the table gave into the caches. -/
def publish (e : Encoder) (r : Row) (hr : r ∈ e.issued.rows) : Encoder :=
  { e with
    shared := Function.update e.shared r.key (some r.id)
    backend := Function.update e.backend r.key (some r.id)
    shared_issued := issued_update hr e.shared_issued
    backend_issued := issued_update hr e.backend_issued }

/-- The upsert of the third tier: the row of the key, inserted if there is none. Either
way the identity column has been asked for a value. -/
def upsert (e : Encoder) (l : TypedLiteral) :
    { result : Row × Encoder // result.1 ∈ result.2.issued.rows } :=
  match found : e.rows.find? l.key with
  | some r =>
    ⟨(r,
      { e with
        nextId := e.nextId + 1
        nextId_pos := by have := e.nextId_pos; omega
        issued_bounds := by
          intro r hr
          have := e.issued_bounds r hr
          omega }),
      e.rows_issued r (UniqueTable.find?_eq_some_iff.mp found).1⟩
  | none =>
    let r := l.row e.nextId
    have fresh : ¬ e.issued.HasKey r.id := by
      intro present
      obtain ⟨r', hr', same⟩ := UniqueTable.hasKey_iff.mp present
      have := (e.issued_bounds r' hr').2
      have : r.id = e.nextId := rfl
      omega
    have old {r' : Row} (h : r' ∈ e.issued.rows) : r' ∈ (e.issued.insertNew r).rows :=
      UniqueTable.mem_insertNew.mpr (.inl h)
    have new : r ∈ (e.issued.insertNew r).rows :=
      UniqueTable.mem_insertNew.mpr (.inr ⟨fresh, rfl⟩)
    ⟨(r,
      { e with
        rows := e.rows.insertNew r
        issued := e.issued.insertNew r
        nextId := e.nextId + 1
        nextId_pos := by have := e.nextId_pos; omega
        rows_issued := by
          intro r' h
          obtain h | ⟨-, rfl⟩ := UniqueTable.mem_insertNew.mp h
          · exact old (e.rows_issued r' h)
          · exact new
        issued_bounds := by
          intro r' h
          obtain h | ⟨-, rfl⟩ := UniqueTable.mem_insertNew.mp h
          · have := e.issued_bounds r' h
            omega
          · have := e.nextId_pos
            show 0 < e.nextId ∧ e.nextId < e.nextId + 1
            omega
        typed := by
          intro r' h isTyped
          obtain h | ⟨-, rfl⟩ := UniqueTable.mem_insertNew.mp h
          · exact e.typed r' h isTyped
          · exact ⟨l, rfl⟩
        shared_issued := by
          intro k i h
          obtain ⟨r', hr', isKey⟩ := e.shared_issued k i h
          exact ⟨r', old hr', isKey⟩
        backend_issued := by
          intro k i h
          obtain ⟨r', hr', isKey⟩ := e.backend_issued k i h
          exact ⟨r', old hr', isKey⟩ }),
      new⟩

/-- `encode_typed_literal`. -/
def encodeTypedLiteral (chrono : Chrono) (e : Encoder) (l : TypedLiteral) : Int × Encoder :=
  match tryEncodeInline chrono l.lexical l.datatype with
  | some id => (id, e)
  | none =>
    match hit : e.shared l.key with
    | some id =>
      (id,
        { e with
          backend := Function.update e.backend l.key (some id)
          backend_issued := by
            obtain ⟨r, hr, isKey, rfl⟩ := e.shared_issued l.key id hit
            rw [← isKey]
            exact issued_update hr e.backend_issued })
    | none =>
      match e.backend l.key with
      | some id => (id, e)
      | none =>
        let result := e.upsert l
        (result.1.1.id, result.1.2.publish result.1.1 result.2)

/-- `decode_full` followed by formatting, as in `format_ntriples`. -/
def formatNtriples (chrono : Chrono) (e : Encoder) (id : Int) : Text :=
  if isInline id then formatInline chrono id
  else
    match e.rows.rows.find? fun r => r.id = id with
    | none => "<unknown:".toList ++ (toString id).toList ++ ">".toList
    | some r => formatNtriplesTerm r.value r.key.2 r.datatype r.lang id

/-- A later state: ids below `nextId` belong to the rows they belonged to. Rows may have
been added, deleted or rolled back, and the caches may hold anything that was issued. -/
def Later (e e' : Encoder) : Prop :=
  e.nextId ≤ e'.nextId ∧ ∀ r ∈ e'.issued.rows, r.id < e.nextId → r ∈ e.issued.rows

theorem Later.refl (e : Encoder) : e.Later e := ⟨le_rfl, fun _ h _ => h⟩

theorem Later.trans {e₁ e₂ e₃ : Encoder} (h : e₁.Later e₂) (h' : e₂.Later e₃) : e₁.Later e₃ := by
  refine ⟨h.1.trans h'.1, fun r hr below => ?_⟩
  exact h.2 r (h'.2 r hr (below.trans_le h.1)) below

section Upsert

variable {e : Encoder} {l : TypedLiteral}

theorem upsert_key : (e.upsert l).1.1.key = l.key := by
  unfold upsert
  split
  · rename_i r found
    exact (UniqueTable.find?_eq_some_iff.mp found).2
  · rfl

theorem upsert_later : e.Later (e.upsert l).1.2 := by
  unfold upsert
  split
  · refine ⟨?_, fun r hr _ => hr⟩
    show e.nextId ≤ e.nextId + 1
    omega
  · refine ⟨?_, fun r hr below => ?_⟩
    · show e.nextId ≤ e.nextId + 1
      omega
    · obtain old | ⟨-, rfl⟩ := UniqueTable.mem_insertNew.mp hr
      · exact old
      · have : e.nextId < e.nextId := below
        omega

theorem upsert_mem_rows : (e.upsert l).1.1 ∈ (e.upsert l).1.2.rows.rows := by
  unfold upsert
  split
  · rename_i r found
    exact (UniqueTable.find?_eq_some_iff.mp found).1
  · rename_i found
    refine UniqueTable.mem_insertNew.mpr (.inr ⟨?_, rfl⟩)
    exact UniqueTable.find?_eq_none_iff.mp found

end Upsert

/-- What the caches answer. -/
def cached (e : Encoder) (l : TypedLiteral) : Option Int := (e.shared l.key).or (e.backend l.key)

/-- The caches answer with an id whose row is gone. -/
def Stale (e : Encoder) (l : TypedLiteral) : Prop :=
  ∃ id, e.cached l = some id ∧ ∀ r ∈ e.rows.rows, r.id ≠ id

section Encode

variable {chrono : Chrono} {e : Encoder} {l : TypedLiteral}

theorem not_stale_iff {id : Int} (answer : e.cached l = some id) :
    ¬ e.Stale l ↔ ∃ r ∈ e.rows.rows, r.id = id := by
  constructor
  · intro notStale
    by_contra none
    exact notStale ⟨id, answer, fun r hr same => none ⟨r, hr, same⟩⟩
  · rintro ⟨r, hr, same⟩ ⟨id', answer', gone⟩
    rw [answer] at answer'
    cases answer'
    exact gone r hr same

theorem encode_inline {id : Int} (h : tryEncodeInline chrono l.lexical l.datatype = some id) :
    e.encodeTypedLiteral chrono l = (id, e) := by
  simp only [encodeTypedLiteral, h]

/-- A literal that is not inlined gets an id that was issued for it. Its row is there,
unless the caches answered and are stale. -/
theorem encode_stored (h : tryEncodeInline chrono l.lexical l.datatype = none) :
    ∃ id e', e.encodeTypedLiteral chrono l = (id, e') ∧ e.Later e' ∧
      (∃ r ∈ e'.issued.rows, r.key = l.key ∧ r.id = id) ∧
      (¬ e.Stale l ↔ ∃ r ∈ e'.rows.rows, r.id = id) := by
  unfold encodeTypedLiteral
  simp only [h]
  split
  · rename_i id hit
    refine ⟨id, _, rfl, ⟨le_rfl, fun _ h _ => h⟩, e.shared_issued l.key id hit, ?_⟩
    exact not_stale_iff (by simp [cached, hit])
  · rename_i miss
    split
    · rename_i id hit
      refine ⟨id, e, rfl, .refl e, e.backend_issued l.key id hit, ?_⟩
      exact not_stale_iff (by simp [cached, miss, hit])
    · rename_i miss'
      have answer : e.cached l = none := by simp [cached, miss, miss']
      refine ⟨_, _, rfl, upsert_later, ⟨_, (e.upsert l).2, upsert_key, rfl⟩, ?_⟩
      refine iff_of_true ?_ ⟨_, upsert_mem_rows, rfl⟩
      rintro ⟨id, hit, -⟩
      rw [answer] at hit
      cases hit

end Encode

end Encoder

/-- How a literal came to its inline id. -/
inductive Inlined (chrono : Chrono) (l : TypedLiteral) (id : Int) : Prop
  | integer (t : IntegerType) (v : Int) (datatype : Datatype.ofIri l.datatype = .integer t)
      (parsed : parseInteger (trim l.lexical) = some v)
      (packed : packSigned typeInteger v = some id)
  | boolean (b : Bool) (datatype : Datatype.ofIri l.datatype = .boolean)
      (parsed : parseBoolean (trim l.lexical) = some b)
      (packed : pack typeBoolean (if b then 1 else 0) = id)
  | dateTime (instant : Int × Nat) (datatype : Datatype.ofIri l.datatype = .dateTime)
      (parsed : utcInstant chrono l.lexical = some instant)
      (packed : packSigned typeDatetime (timestampMicros instant) = some id)
  | date (n : Int) (datatype : Datatype.ofIri l.datatype = .date)
      (parsed : chrono.parseDate (trim l.lexical) = some n)
      (packed : packSigned typeDate n = some id)

section Inlined

variable {chrono : Chrono} {l : TypedLiteral} {id : Int}

theorem inlined_iff : tryEncodeInline chrono l.lexical l.datatype = some id ↔
    Inlined chrono l id := by
  constructor
  · intro h
    unfold tryEncodeInline at h
    split at h
    · rename_i t datatype
      obtain ⟨v, parsed, -, packed⟩ := tryEncodeInteger_eq_some.mp h
      exact .integer t v datatype parsed packed
    · rename_i datatype
      obtain ⟨b, parsed, packed⟩ := tryEncodeBoolean_eq_some.mp h
      exact .boolean b datatype parsed packed
    · rename_i datatype
      obtain ⟨instant, parsed, packed⟩ := tryEncodeDatetime_eq_some.mp h
      exact .dateTime instant datatype parsed packed
    · rename_i datatype
      obtain ⟨n, parsed, packed⟩ := tryEncodeDate_eq_some.mp h
      exact .date n datatype parsed packed
    · cases h
  · intro h
    unfold tryEncodeInline
    cases h with
    | integer t v datatype parsed packed =>
      simp only [datatype]
      have fits := (packSigned_eq_some (by decide) packed).2.2.2
      exact tryEncodeInteger_eq_some.mpr ⟨v, parsed, fits, packed⟩
    | boolean b datatype parsed packed =>
      simp only [datatype]
      exact tryEncodeBoolean_eq_some.mpr ⟨b, parsed, packed⟩
    | dateTime instant datatype parsed packed =>
      simp only [datatype]
      exact tryEncodeDatetime_eq_some.mpr ⟨instant, parsed, packed⟩
    | date n datatype parsed packed =>
      simp only [datatype]
      exact tryEncodeDate_eq_some.mpr ⟨n, parsed, packed⟩

/-- The type code in the id of a literal of this datatype. -/
def Datatype.typeCode : Datatype → Nat
  | .integer _ => typeInteger
  | .boolean => typeBoolean
  | .dateTime => typeDatetime
  | .date => typeDate
  | .other => typeInteger

theorem Inlined.neg (h : Inlined chrono l id) : id < 0 := by
  cases h with
  | integer t v datatype parsed packed => exact (packSigned_eq_some (by decide) packed).1
  | boolean b datatype parsed packed =>
    rw [← packed]
    exact (pack_boolean b).1
  | dateTime instant datatype parsed packed => exact (packSigned_eq_some (by decide) packed).1
  | date n datatype parsed packed => exact (packSigned_eq_some (by decide) packed).1

theorem Inlined.type (h : Inlined chrono l id) :
    unpackType id = (Datatype.ofIri l.datatype).typeCode := by
  cases h with
  | integer t v datatype parsed packed =>
    rw [datatype]
    exact (packSigned_eq_some (by decide) packed).2.1
  | boolean b datatype parsed packed =>
    rw [datatype, ← packed]
    exact (pack_boolean b).2.1
  | dateTime instant datatype parsed packed =>
    rw [datatype]
    exact (packSigned_eq_some (by decide) packed).2.1
  | date n datatype parsed packed =>
    rw [datatype]
    exact (packSigned_eq_some (by decide) packed).2.1

end Inlined

section Identity

variable (chrono : Chrono)

/-- Two integers of one value but of different datatypes, or of one value that is outside
of their datatype and written in two ways. -/
def IntegersConfused (l₁ l₂ : TypedLiteral) : Prop :=
  ∃ t₁ t₂ v, Datatype.ofIri l₁.datatype = .integer t₁ ∧ Datatype.ofIri l₂.datatype = .integer t₂ ∧
    parseInteger (trim l₁.lexical) = some v ∧ parseInteger (trim l₂.lexical) = some v ∧ Fits v ∧
    (t₁ ≠ t₂ ∨ l₁.lexical ≠ l₂.lexical ∧ ¬ t₁.InValueSpace v)

/-- Two instants that agree in their microseconds only. -/
def InstantsConfused (l₁ l₂ : TypedLiteral) : Prop :=
  ∃ t₁ t₂, Datatype.ofIri l₁.datatype = .dateTime ∧ Datatype.ofIri l₂.datatype = .dateTime ∧
    utcInstant chrono l₁.lexical = some t₁ ∧ utcInstant chrono l₂.lexical = some t₂ ∧
    t₁ ≠ t₂ ∧ timestampMicros t₁ = timestampMicros t₂ ∧ Fits (timestampMicros t₁)

def Confused (l₁ l₂ : TypedLiteral) : Prop :=
  IntegersConfused l₁ l₂ ∨ InstantsConfused chrono l₁ l₂

variable {chrono} {l₁ l₂ : TypedLiteral} {id : Int}

theorem Confused.share (h : Confused chrono l₁ l₂) :
    ∃ id, Inlined chrono l₁ id ∧ Inlined chrono l₂ id := by
  obtain ⟨t₁, t₂, v, d₁, d₂, p₁, p₂, fits, -⟩ | ⟨t₁, t₂, d₁, d₂, p₁, p₂, -, same, fits⟩ := h
  · obtain ⟨id, packed⟩ := packSigned_of_fits typeInteger fits
    exact ⟨id, .integer t₁ v d₁ p₁ packed, .integer t₂ v d₂ p₂ packed⟩
  · obtain ⟨id, packed⟩ := packSigned_of_fits typeDatetime fits
    exact ⟨id, .dateTime t₁ d₁ p₁ packed, .dateTime t₂ d₂ p₂ (same ▸ packed)⟩

theorem Confused.not_same (h : Confused chrono l₁ l₂) : ¬ TypedLiteral.Same chrono l₁ l₂ := by
  rintro ⟨datatypes, same⟩
  obtain ⟨t₁, t₂, v, d₁, d₂, p₁, -, -, differ⟩ | ⟨t₁, t₂, d₁, d₂, p₁, p₂, differ, -, -⟩ := h
  · obtain differ | ⟨lexical, outside⟩ := differ
    · rw [datatypes, d₂] at d₁
      cases d₁
      exact differ rfl
    · obtain same | ⟨w, value, -⟩ := same
      · exact lexical same
      · simp only [TypedLiteral.value, d₁, p₁, if_neg outside] at value
        cases value
  · have q₁ := parseDateTime_of_utcInstant p₁
    have q₂ := parseDateTime_of_utcInstant p₂
    obtain same | ⟨w, v₁, v₂⟩ := same
    · rw [same, p₂] at p₁
      exact differ (Option.some.inj p₁).symm
    · simp only [TypedLiteral.value, d₁, q₁, Option.map_some] at v₁
      simp only [TypedLiteral.value, d₂, q₂, Option.map_some] at v₂
      rw [← v₁] at v₂
      have := Value.instant.inj (Option.some.inj v₂)
      exact differ (Prod.ext this.1.symm this.2.symm)

/-- Literals that share an inline id and are not confused are the same. -/
theorem same_of_share (i₁ : Inlined chrono l₁ id) (i₂ : Inlined chrono l₂ id)
    (clear : ¬ Confused chrono l₁ l₂) : TypedLiteral.Same chrono l₁ l₂ := by
  have types := i₁.type.symm.trans i₂.type
  cases i₁ with
  | integer t₁ v₁ d₁ p₁ packed₁ =>
    cases i₂ with
    | integer t₂ v₂ d₂ p₂ packed₂ =>
      obtain ⟨-, rfl⟩ := packSigned_inj (by decide) (by decide) packed₁ packed₂
      have fits := (packSigned_eq_some (by decide) packed₁).2.2.2
      have agree : ¬ (t₁ ≠ t₂ ∨ l₁.lexical ≠ l₂.lexical ∧ ¬ t₁.InValueSpace v₁) :=
        fun differ => clear (.inl ⟨t₁, t₂, v₁, d₁, d₂, p₁, p₂, fits, differ⟩)
      simp only [not_or, not_not, not_and_or] at agree
      obtain ⟨rfl, agree⟩ := agree
      refine ⟨(Datatype.ofIri_integer d₁).trans (Datatype.ofIri_integer d₂).symm, ?_⟩
      refine agree.imp_right fun inside => ⟨.integer v₁, ?_, ?_⟩
      · simp only [TypedLiteral.value, d₁, p₁, if_pos inside]
      · simp only [TypedLiteral.value, d₂, p₂, if_pos inside]
    | boolean b d₂ p₂ packed₂ => simp [d₁, d₂, Datatype.typeCode, typeInteger, typeBoolean] at types
    | dateTime t d₂ p₂ packed₂ =>
      simp [d₁, d₂, Datatype.typeCode, typeInteger, typeDatetime] at types
    | date n d₂ p₂ packed₂ => simp [d₁, d₂, Datatype.typeCode, typeInteger, typeDate] at types
  | boolean b₁ d₁ p₁ packed₁ =>
    cases i₂ with
    | integer t v d₂ p₂ packed₂ =>
      simp [d₁, d₂, Datatype.typeCode, typeInteger, typeBoolean] at types
    | boolean b₂ d₂ p₂ packed₂ =>
      have same : b₁ = b₂ := by
        have first := (pack_boolean b₁).2.2
        have second := (pack_boolean b₂).2.2
        rw [packed₁] at first
        rw [packed₂] at second
        exact Bool.eq_iff_iff.mpr (first.symm.trans second)
      subst same
      refine ⟨(Datatype.ofIri_boolean d₁).trans (Datatype.ofIri_boolean d₂).symm,
        .inr ⟨.boolean b₁, ?_, ?_⟩⟩
      · simp only [TypedLiteral.value, d₁, p₁, Option.map_some]
      · simp only [TypedLiteral.value, d₂, p₂, Option.map_some]
    | dateTime t d₂ p₂ packed₂ =>
      simp [d₁, d₂, Datatype.typeCode, typeBoolean, typeDatetime] at types
    | date n d₂ p₂ packed₂ => simp [d₁, d₂, Datatype.typeCode, typeBoolean, typeDate] at types
  | dateTime t₁ d₁ p₁ packed₁ =>
    cases i₂ with
    | integer t v d₂ p₂ packed₂ =>
      simp [d₁, d₂, Datatype.typeCode, typeInteger, typeDatetime] at types
    | boolean b d₂ p₂ packed₂ =>
      simp [d₁, d₂, Datatype.typeCode, typeBoolean, typeDatetime] at types
    | dateTime t₂ d₂ p₂ packed₂ =>
      obtain ⟨-, micros⟩ := packSigned_inj (by decide) (by decide) packed₁ packed₂
      have fits := (packSigned_eq_some (by decide) packed₁).2.2.2
      have same : t₁ = t₂ := by
        by_contra differ
        exact clear (.inr ⟨t₁, t₂, d₁, d₂, p₁, p₂, differ, micros, fits⟩)
      subst same
      have q₁ := parseDateTime_of_utcInstant p₁
      have q₂ := parseDateTime_of_utcInstant p₂
      refine ⟨(Datatype.ofIri_dateTime d₁).trans (Datatype.ofIri_dateTime d₂).symm,
        .inr ⟨.instant t₁.1 t₁.2, ?_, ?_⟩⟩
      · simp only [TypedLiteral.value, d₁, q₁, Option.map_some]
      · simp only [TypedLiteral.value, d₂, q₂, Option.map_some]
    | date n d₂ p₂ packed₂ => simp [d₁, d₂, Datatype.typeCode, typeDatetime, typeDate] at types
  | date n₁ d₁ p₁ packed₁ =>
    cases i₂ with
    | integer t v d₂ p₂ packed₂ =>
      simp [d₁, d₂, Datatype.typeCode, typeInteger, typeDate] at types
    | boolean b d₂ p₂ packed₂ => simp [d₁, d₂, Datatype.typeCode, typeBoolean, typeDate] at types
    | dateTime t d₂ p₂ packed₂ =>
      simp [d₁, d₂, Datatype.typeCode, typeDatetime, typeDate] at types
    | date n₂ d₂ p₂ packed₂ =>
      obtain ⟨-, rfl⟩ := packSigned_inj (by decide) (by decide) packed₁ packed₂
      refine ⟨(Datatype.ofIri_date d₁).trans (Datatype.ofIri_date d₂).symm,
        .inr ⟨.day n₁, ?_, ?_⟩⟩
      · simp only [TypedLiteral.value, d₁, p₁, Option.map_some]
      · simp only [TypedLiteral.value, d₂, p₂, Option.map_some]

namespace Encoder

variable {e e' : Encoder}

theorem id_cases (chrono : Chrono) (e : Encoder) (l : TypedLiteral) :
    Inlined chrono l (e.encodeTypedLiteral chrono l).1 ∨
      ∃ r ∈ (e.encodeTypedLiteral chrono l).2.issued.rows,
        r.key = l.key ∧ r.id = (e.encodeTypedLiteral chrono l).1 := by
  cases h : tryEncodeInline chrono l.lexical l.datatype with
  | some id =>
    rw [encode_inline h]
    exact .inl (inlined_iff.mp h)
  | none =>
    obtain ⟨id, e', result, -, row, -⟩ := encode_stored (e := e) h
    rw [result]
    exact .inr row

theorem encode_later (e : Encoder) (l : TypedLiteral) :
    e.Later (e.encodeTypedLiteral chrono l).2 := by
  cases h : tryEncodeInline chrono l.lexical l.datatype with
  | some id =>
    rw [encode_inline h]
    exact .refl e
  | none =>
    obtain ⟨id, e', result, later, -⟩ := encode_stored (e := e) h
    rw [result]
    exact later

/-- Stored literals with one id are equal, however much happened in between. -/
theorem eq_of_stored_id {r₁ r₂ : Row} {e₃ : Encoder} (h₁ : r₁ ∈ e.issued.rows)
    (h₂ : r₂ ∈ e₃.issued.rows) (later : e.Later e₃) (key₁ : r₁.key = l₁.key)
    (key₂ : r₂.key = l₂.key) (same : r₁.id = r₂.id) : l₁ = l₂ := by
  have below : r₂.id < e.nextId := same ▸ (e.issued_bounds r₁ h₁).2
  have old := later.2 r₂ h₂ below
  have : r₁ = r₂ := e.issued.eq_of_key_eq h₁ old same
  subst this
  exact TypedLiteral.key_inj (key₁.symm.trans key₂)

end Encoder

end Identity

section Print

variable (chrono : Chrono)

/-- The text is that of a literal which is the same as `l`. -/
def Denotes (text : Text) (l : TypedLiteral) : Prop :=
  ∃ l' : TypedLiteral,
    text = formatNtriplesTerm l'.lexical .typedLiteral (some l'.datatype) none 0 ∧
      TypedLiteral.Same chrono l' l

/-- An inlined integer of a derived datatype. -/
def IntegerMisprinted (l : TypedLiteral) : Prop :=
  ∃ t v, Datatype.ofIri l.datatype = .integer t ∧ t ≠ .integer ∧
    parseInteger (trim l.lexical) = some v ∧ Fits v

/-- An inlined instant in a leap second, or with digits beyond the microsecond. -/
def InstantMisprinted (l : TypedLiteral) : Prop :=
  ∃ t, Datatype.ofIri l.datatype = .dateTime ∧ utcInstant chrono l.lexical = some t ∧
    Fits (timestampMicros t) ∧ ¬ (t.2 < 10 ^ 9 ∧ 1000 ∣ t.2)

def Misprinted (l : TypedLiteral) : Prop := IntegerMisprinted l ∨ InstantMisprinted chrono l

variable {chrono} {l : TypedLiteral} {id : Int}

theorem escapeLiteral_injective : Function.Injective escapeLiteral :=
  Escape.escape_injective (by decide) (by grind [escapeCode_eq_some])

theorem escapeLiteral_plain {s : Text} (plain : ∀ c ∈ s, escapeCode c = none) :
    escapeLiteral s = s :=
  Escape.escape_of_no_code fun c hc k coded => by simp [plain c hc] at coded

theorem denotes_writeTyped {printed : TypedLiteral}
    (plain : ∀ c ∈ printed.lexical, escapeCode c = none) :
    Denotes chrono (writeTyped printed.lexical printed.datatype) l ↔
      TypedLiteral.Same chrono printed l := by
  have written (l' : TypedLiteral) :
      formatNtriplesTerm l'.lexical .typedLiteral (some l'.datatype) none 0 =
        writeTyped (escapeLiteral l'.lexical) l'.datatype := rfl
  constructor
  · rintro ⟨l', text, same⟩
    rw [written, ← escapeLiteral_plain plain] at text
    obtain ⟨lexical, datatype⟩ := writeTyped_inj printed.isIri l'.isIri text
    have : printed = l' := by
      cases printed
      cases l'
      cases escapeLiteral_injective lexical
      cases datatype
      rfl
    exact this ▸ same
  · intro same
    exact ⟨printed, by rw [written, escapeLiteral_plain plain], same⟩

/-- The nanoseconds that are printed are those that were read. -/
theorem micros_roundTrip {t : Int × Nat} :
    (timestampMicros t / 10 ^ 6, (timestampMicros t % 10 ^ 6).toNat * 1000) = t ↔
      t.2 < 10 ^ 9 ∧ 1000 ∣ t.2 := by
  obtain ⟨seconds, nanos⟩ := t
  simp only [timestampMicros, Prod.mk.injEq, Nat.dvd_iff_mod_eq_zero]
  omega

theorem ofIri_xsd :
    Datatype.ofIri (xsd "integer") = .integer .integer ∧ Datatype.ofIri (xsd "boolean") = .boolean ∧
      Datatype.ofIri (xsd "dateTime") = .dateTime ∧ Datatype.ofIri (xsd "date") = .date := by
  decide

/-- A literal of a datatype of which every value is printed in full. -/
theorem not_misprinted {d : Datatype} (datatype : Datatype.ofIri l.datatype = d)
    (integer : ∀ t, d ≠ .integer t) (dateTime : d ≠ .dateTime) : ¬ Misprinted chrono l := by
  rintro (⟨t, v, d', -⟩ | ⟨t, d', -⟩)
  · exact integer t (datatype.symm.trans d')
  · exact dateTime (datatype.symm.trans d')

theorem denotes_integer_iff {t : IntegerType} {v : Int}
    (datatype : Datatype.ofIri l.datatype = .integer t)
    (parsed : parseInteger (trim l.lexical) = some v)
    (packed : packSigned typeInteger v = some id) :
    Denotes chrono (formatInline chrono id) l ↔ ¬ Misprinted chrono l := by
  obtain ⟨-, type, decoded, fits⟩ := packSigned_eq_some (by decide) packed
  let printed : TypedLiteral := ⟨(toString v).toList, xsd "integer", by decide⟩
  have text : formatInline chrono id = writeTyped printed.lexical printed.datatype := by
    simp only [formatInline, type, if_true, decoded, printed]
  have plain : ∀ c ∈ printed.lexical, escapeCode c = none :=
    fun c hc => escapeCode_plain (mem_toString_int hc)
  have read : parseInteger (trim printed.lexical) = some v := by
    rw [trim_of_plain fun c hc => mem_toString_int hc, parseInteger_toString]
  have printedType : Datatype.ofIri printed.datatype = .integer .integer := ofIri_xsd.1
  rw [text, denotes_writeTyped plain]
  constructor
  · rintro ⟨same, -⟩ (⟨t', v', d', ne, -⟩ | ⟨-, d', -⟩)
    · rw [← same, printedType] at d'
      cases d'
      exact ne rfl
    · rw [datatype] at d'
      cases d'
  · intro faithful
    have isInteger : t = .integer := by
      by_contra ne
      exact faithful (.inl ⟨t, v, datatype, ne, parsed, fits⟩)
    subst isInteger
    refine ⟨(Datatype.ofIri_integer datatype).symm, .inr ⟨.integer v, ?_, ?_⟩⟩
    · simp only [TypedLiteral.value, printedType, read]
      exact if_pos trivial
    · simp only [TypedLiteral.value, datatype, parsed]
      exact if_pos trivial

theorem denotes_boolean {b : Bool} (datatype : Datatype.ofIri l.datatype = .boolean)
    (parsed : parseBoolean (trim l.lexical) = some b)
    (packed : pack typeBoolean (if b then 1 else 0) = id) :
    Denotes chrono (formatInline chrono id) l := by
  obtain ⟨-, type, bits⟩ := pack_boolean b
  rw [packed] at type bits
  let printed : TypedLiteral :=
    ⟨if b then "true".toList else "false".toList, xsd "boolean", by decide⟩
  have text : formatInline chrono id = writeTyped printed.lexical printed.datatype := by
    have notInteger : unpackType id ≠ typeInteger := by
      rw [type]
      decide
    have value : (if unpackValueBits id ≠ 0 then "true".toList else "false".toList) =
        printed.lexical := if_congr bits rfl rfl
    simp only [formatInline, if_neg notInteger, if_pos type, value, printed]
  have plain : ∀ c ∈ printed.lexical, escapeCode c = none := by
    have letters : printed.lexical.all Char.isAlphanum = true := by
      cases b <;> decide
    intro c hc
    exact escapeCode_plain (.inl (List.all_eq_true.mp letters c hc))
  have read : parseBoolean (trim printed.lexical) = some b := by
    cases b <;> decide
  have printedType : Datatype.ofIri printed.datatype = .boolean := ofIri_xsd.2.1
  rw [text, denotes_writeTyped plain]
  refine ⟨(Datatype.ofIri_boolean datatype).symm, .inr ⟨.boolean b, ?_, ?_⟩⟩
  · simp only [TypedLiteral.value, printedType, read, Option.map_some]
  · simp only [TypedLiteral.value, datatype, parsed, Option.map_some]

theorem denotes_dateTime_iff {t : Int × Nat} (datatype : Datatype.ofIri l.datatype = .dateTime)
    (parsed : utcInstant chrono l.lexical = some t)
    (packed : packSigned typeDatetime (timestampMicros t) = some id) :
    Denotes chrono (formatInline chrono id) l ↔ ¬ Misprinted chrono l := by
  obtain ⟨-, type, decoded, fits⟩ := packSigned_eq_some (by decide) packed
  let printed : TypedLiteral :=
    ⟨chrono.formatMicros (timestampMicros t), xsd "dateTime", by decide⟩
  have text : formatInline chrono id = writeTyped printed.lexical printed.datatype := by
    simp [formatInline, type, decoded, printed, typeDatetime, typeBoolean, typeInteger]
  have plain : ∀ c ∈ printed.lexical, escapeCode c = none := chrono.plain_formatMicros _
  have printedType : Datatype.ofIri printed.datatype = .dateTime := ofIri_xsd.2.2.1
  have read : chrono.parseDateTime (trim printed.lexical) = _ :=
    chrono.parse_formatMicros (timestampMicros t) fits
  have stored := parseDateTime_of_utcInstant parsed
  rw [text, denotes_writeTyped plain]
  constructor
  · rintro ⟨-, same⟩ (⟨t', v', d', -⟩ | ⟨t', -, p', -, misprinted⟩)
    · rw [datatype] at d'
      cases d'
    · rw [parsed] at p'
      cases p'
      refine misprinted (micros_roundTrip.mp ?_)
      obtain same | ⟨w, v₁, v₂⟩ := same
      · rw [← same, read] at stored
        exact Option.some.inj stored
      · simp only [TypedLiteral.value, printedType, read, Option.map_some] at v₁
        simp only [TypedLiteral.value, datatype, stored, Option.map_some] at v₂
        rw [← v₂] at v₁
        have := Value.instant.inj (Option.some.inj v₁)
        exact Prod.ext this.1 this.2
  · intro faithful
    have exact : t.2 < 10 ^ 9 ∧ 1000 ∣ t.2 := by
      by_contra inexact
      exact faithful (.inr ⟨t, datatype, parsed, fits, inexact⟩)
    rw [micros_roundTrip.mpr exact] at read
    refine ⟨(Datatype.ofIri_dateTime datatype).symm, .inr ⟨.instant t.1 t.2, ?_, ?_⟩⟩
    · simp only [TypedLiteral.value, printedType, read, Option.map_some]
    · simp only [TypedLiteral.value, datatype, stored, Option.map_some]

theorem denotes_date {n : Int} (datatype : Datatype.ofIri l.datatype = .date)
    (parsed : chrono.parseDate (trim l.lexical) = some n)
    (packed : packSigned typeDate n = some id) : Denotes chrono (formatInline chrono id) l := by
  obtain ⟨-, type, decoded, -⟩ := packSigned_eq_some (by decide) packed
  let printed : TypedLiteral := ⟨chrono.formatDays n, xsd "date", by decide⟩
  have text : formatInline chrono id = writeTyped printed.lexical printed.datatype := by
    simp [formatInline, type, decoded, printed, typeDate, typeDatetime, typeBoolean, typeInteger]
  have plain : ∀ c ∈ printed.lexical, escapeCode c = none := chrono.plain_formatDays _
  have printedType : Datatype.ofIri printed.datatype = .date := ofIri_xsd.2.2.2
  have read : chrono.parseDate (trim printed.lexical) = some n := chrono.parse_formatDays _ n parsed
  rw [text, denotes_writeTyped plain]
  refine ⟨(Datatype.ofIri_date datatype).symm, .inr ⟨.day n, ?_, ?_⟩⟩
  · simp only [TypedLiteral.value, printedType, read, Option.map_some]
  · simp only [TypedLiteral.value, datatype, parsed, Option.map_some]

theorem denotes_formatInline_iff (h : Inlined chrono l id) :
    Denotes chrono (formatInline chrono id) l ↔ ¬ Misprinted chrono l := by
  cases h with
  | integer t v datatype parsed packed => exact denotes_integer_iff datatype parsed packed
  | boolean b datatype parsed packed =>
    exact iff_of_true (denotes_boolean datatype parsed packed)
      (not_misprinted datatype (fun t h => by cases h) (fun h => by cases h))
  | dateTime t datatype parsed packed => exact denotes_dateTime_iff datatype parsed packed
  | date n datatype parsed packed =>
    exact iff_of_true (denotes_date datatype parsed packed)
      (not_misprinted datatype (fun t h => by cases h) (fun h => by cases h))

end Print

namespace Encoder

section Results

variable {chrono : Chrono} {e : Encoder} {l : TypedLiteral}

/-- A stored literal is printed from its row. -/
theorem denotes_stored_iff (stored : tryEncodeInline chrono l.lexical l.datatype = none) :
    Denotes chrono (formatNtriples chrono (e.encodeTypedLiteral chrono l).2
      (e.encodeTypedLiteral chrono l).1) l ↔ ¬ e.Stale l := by
  obtain ⟨id, e', result, -, ⟨r, hr, isKey, rfl⟩, present⟩ := encode_stored (e := e) stored
  rw [result, present]
  have positive := (e'.issued_bounds r hr).1
  have notInline : ¬ isInline r.id = true := by
    simp only [isInline, decide_eq_true_eq]
    omega
  simp only [formatNtriples, if_neg notInline]
  cases found : e'.rows.rows.find? fun r' => r'.id = r.id with
  | none =>
    have absent := List.find?_eq_none.mp found
    refine iff_of_false ?_ ?_
    · rintro ⟨l', text, -⟩
      simp [formatNtriplesTerm] at text
    · rintro ⟨r', hr', same⟩
      exact absent r' hr' (by simpa using same)
  | some r' =>
    have hr' := List.mem_of_find?_eq_some found
    have sameId : r'.id = r.id := by simpa using List.find?_some found
    refine iff_of_true ?_ ⟨r', hr', sameId⟩
    have same : r' = r := e'.issued.eq_of_key_eq (e'.rows_issued r' hr') hr sameId
    subst same
    obtain ⟨l', isRow⟩ := e'.typed r' hr (by rw [isKey]; rfl)
    have isL : l' = l := TypedLiteral.key_inj (by rw [← isKey, isRow]; rfl)
    subst isL
    refine ⟨l', ?_, rfl, .inl rfl⟩
    rw [isRow]
    rfl

end Results

/-- Two literals are kept apart, at any two times, if and only if they are not confused;
and a literal is printed as itself if and only if its inline form is exact, or, if it is
stored, the caches do not answer with an id whose row is gone. -/
theorem typedLiteral_identity_iff (chrono : Chrono) :
    (∀ l₁ l₂ : TypedLiteral,
      (∀ e e' : Encoder, (e.encodeTypedLiteral chrono l₁).2.Later e' →
        (e.encodeTypedLiteral chrono l₁).1 = (e'.encodeTypedLiteral chrono l₂).1 →
        TypedLiteral.Same chrono l₁ l₂) ↔ ¬ Confused chrono l₁ l₂) ∧
    ∀ (e : Encoder) (l : TypedLiteral),
      Denotes chrono (formatNtriples chrono (e.encodeTypedLiteral chrono l).2
        (e.encodeTypedLiteral chrono l).1) l ↔
      ¬ Misprinted chrono l ∧
        (tryEncodeInline chrono l.lexical l.datatype = none → ¬ e.Stale l) := by
  refine ⟨fun l₁ l₂ => ⟨?_, ?_⟩, fun e l => ?_⟩
  · intro apart confused
    obtain ⟨id, i₁, i₂⟩ := confused.share
    refine confused.not_same (apart .initial .initial ?_ ?_)
    · rw [encode_inline (inlined_iff.mpr i₁)]
      exact .refl _
    · rw [encode_inline (inlined_iff.mpr i₁), encode_inline (inlined_iff.mpr i₂)]
  · intro clear e e' later same
    obtain i₁ | ⟨r₁, h₁, key₁, id₁⟩ := id_cases chrono e l₁
    · obtain i₂ | ⟨r₂, h₂, -, id₂⟩ := id_cases chrono e' l₂
      · exact same_of_share i₁ (same ▸ i₂) clear
      · have negative := i₁.neg
        have positive := (Encoder.issued_bounds _ r₂ h₂).1
        omega
    · obtain i₂ | ⟨r₂, h₂, key₂, id₂⟩ := id_cases chrono e' l₂
      · have negative := i₂.neg
        have positive := (Encoder.issued_bounds _ r₁ h₁).1
        omega
      · have := eq_of_stored_id h₁ h₂ (later.trans (encode_later e' l₂)) key₁ key₂
          (id₁.trans (same.trans id₂.symm))
        subst this
        exact ⟨rfl, .inl rfl⟩
  · cases h : tryEncodeInline chrono l.lexical l.datatype with
    | some id =>
        have inlined := inlined_iff.mp h
        have negative := inlined.neg
        have isInline : isInline id = true := by simpa [Dictionary.isInline] using negative
        rw [encode_inline h]
        simp only [formatNtriples, if_pos isInline, denotes_formatInline_iff inlined, reduceCtorEq,
          false_imp_iff, and_true]
    | none =>
        have exact : ¬ Misprinted chrono l := by
          rintro (⟨t, v, d, -, p, fits⟩ | ⟨t, d, p, fits, -⟩)
          · obtain ⟨id, packed⟩ := packSigned_of_fits typeInteger fits
            have inlined : Inlined chrono l id := .integer t v d p packed
            have := inlined_iff.mpr inlined
            rw [h] at this
            cases this
          · obtain ⟨id, packed⟩ := packSigned_of_fits typeDatetime fits
            have := inlined_iff.mpr (.dateTime t d p packed)
            rw [h] at this
            cases this
        rw [denotes_stored_iff h]
        simp only [exact, not_false_eq_true, true_and, forall_const]

/-- A stand-in for `chrono` that writes times and dates as plain numbers. -/
def numericChrono : Chrono where
  parseDateTime s := (parseInteger s).map fun m => (m / 10 ^ 6, (m % 10 ^ 6).toNat * 1000)
  parseDate := parseInteger
  formatMicros m := (toString m).toList
  formatDays n := (toString n).toList
  parse_formatMicros m _ := by
    rw [trim_of_plain fun c hc => mem_toString_int hc, parseInteger_toString, Option.map_some]
  parse_formatDays s n _ := by
    rw [trim_of_plain fun c hc => mem_toString_int hc, parseInteger_toString]
  plain_formatMicros m c hc := escapeCode_plain (mem_toString_int hc)
  plain_formatDays n c hc := escapeCode_plain (mem_toString_int hc)

/-- `"1"^^xsd:int` and `"1"^^xsd:integer` have one id. -/
theorem not_typedLiteral_identity :
    ¬ ∀ (chrono : Chrono) (l₁ l₂ : TypedLiteral) (e e' : Encoder),
      (e.encodeTypedLiteral chrono l₁).2.Later e' →
      (e.encodeTypedLiteral chrono l₁).1 = (e'.encodeTypedLiteral chrono l₂).1 →
      TypedLiteral.Same chrono l₁ l₂ := by
  intro apart
  have int : tryEncodeInline numericChrono "1".toList (xsd "int") =
      some (-9187343239835811839) := by decide
  have integer : tryEncodeInline numericChrono "1".toList (xsd "integer") =
      some (-9187343239835811839) := by decide
  have same := apart numericChrono ⟨"1".toList, xsd "int", by decide⟩
    ⟨"1".toList, xsd "integer", by decide⟩ .initial .initial
    (by rw [encode_inline int]; exact .refl _)
    (by rw [encode_inline int, encode_inline integer])
  exact absurd same.1 (by decide)

end Encoder

end PgRipple.Dictionary
