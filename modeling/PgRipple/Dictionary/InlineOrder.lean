import PgRipple.Dictionary.Inline

/-!
# The order of inline ids

The generated SQL compares inline ids where it should compare the values they hold. For
integers, date-times and dates alike, a value is inlined exactly when it fits into the 56
bits, its id reads back as the value, and ids of one type are ordered as their values.
Ids of different types never meet, and none is an id of a dictionary row.
-/

namespace PgRipple.Dictionary

section Pack

variable {typeCode valueBits : Nat}

theorem pack_masked (typeCode valueBits : Nat) :
    pack typeCode valueBits = pack typeCode (valueBits % 2 ^ 56) := by
  have masked : valueBits &&& valueMask = valueBits % 2 ^ 56 % 2 ^ 56 := by
    rw [valueMask, Nat.and_two_pow_sub_one_eq_mod, Nat.mod_mod]
  have again : valueBits % 2 ^ 56 &&& valueMask = valueBits % 2 ^ 56 % 2 ^ 56 := by
    rw [valueMask, Nat.and_two_pow_sub_one_eq_mod]
  rw [pack, pack, masked, again]

theorem unpackType_pack_masked (type : typeCode < 2 ^ 7) :
    unpackType (pack typeCode valueBits) = typeCode := by
  have value : valueBits % 2 ^ 56 < 2 ^ 56 := by omega
  rw [pack_masked]
  exact unpackType_pack type value

end Pack

/-- The id of a value that fits, without the bit operations. -/
theorem packSigned_of_value {typeCode : Nat} {v id : Int} (type : typeCode < 2 ^ 7)
    (packed : packSigned typeCode v = some id) :
    id = typeCode * 2 ^ 56 + (v + 2 ^ 55) - 2 ^ 63 := by
  have fits := (packSigned_eq_some type packed).2.2.2
  have lower := fits.1
  have upper := fits.2
  unfold integerOffset at lower upper
  have value : (v + integerOffset).toNat < 2 ^ 56 := by
    unfold integerOffset
    omega
  rw [packSigned, if_pos fits, pack_eq type value] at packed
  have placed := Option.some.inj packed
  unfold integerOffset at placed
  omega

/-- What an encoder of one type promises. `read` is the value that a text stands for. -/
structure Lawful (typeCode : Nat) (read encode : Text → Option Int) (decode : Int → Int) :
    Prop where
  encodes : ∀ {lexical v}, read lexical = some v →
    ((encode lexical).isSome ↔ -2 ^ 55 ≤ v ∧ v ≤ 2 ^ 55 - 1)
  reads : ∀ {lexical}, (encode lexical).isSome → (read lexical).isSome
  inline : ∀ {lexical id}, encode lexical = some id → id < 0 ∧ unpackType id = typeCode
  decodes : ∀ {lexical id v}, encode lexical = some id → read lexical = some v → decode id = v
  ordered : ∀ {lexical₁ lexical₂ id₁ id₂ v₁ v₂},
    encode lexical₁ = some id₁ → encode lexical₂ = some id₂ →
    read lexical₁ = some v₁ → read lexical₂ = some v₂ → (id₁ < id₂ ↔ v₁ < v₂)

theorem lawful_packSigned {typeCode : Nat} (type : typeCode < 2 ^ 7) (read : Text → Option Int) :
    Lawful typeCode read (fun lexical => (read lexical).bind (packSigned typeCode))
      decodeSigned where
  encodes := by
    intro lexical v value
    simp only [value, Option.bind_some]
    constructor
    · intro encoded
      obtain ⟨id, packed⟩ := Option.isSome_iff_exists.mp encoded
      exact (packSigned_eq_some type packed).2.2.2
    · intro fits
      obtain ⟨id, packed⟩ := packSigned_of_fits typeCode (v := v) fits
      rw [packed]
      rfl
  reads := by
    intro lexical encoded
    obtain ⟨id, encoded⟩ := Option.isSome_iff_exists.mp encoded
    obtain ⟨v, value, -⟩ := Option.bind_eq_some_iff.mp encoded
    rw [value]
    rfl
  inline := by
    intro lexical id encoded
    obtain ⟨v, -, packed⟩ := Option.bind_eq_some_iff.mp encoded
    have spec := packSigned_eq_some type packed
    exact ⟨spec.1, spec.2.1⟩
  decodes := by
    intro lexical id v encoded value
    simp only [value, Option.bind_some] at encoded
    exact (packSigned_eq_some type encoded).2.2.1
  ordered := by
    intro lexical₁ lexical₂ id₁ id₂ v₁ v₂ encoded₁ encoded₂ value₁ value₂
    simp only [value₁, Option.bind_some] at encoded₁
    simp only [value₂, Option.bind_some] at encoded₂
    have place₁ := packSigned_of_value type encoded₁
    have place₂ := packSigned_of_value type encoded₂
    omega

/-- The value of an `xsd:integer` text that fits into 64 bits. -/
def readInteger (lexical : Text) : Option Int := parseI64 (trim lexical)

/-- The microseconds of an `xsd:dateTime` text in UTC. -/
def readMicros (chrono : Chrono) (lexical : Text) : Option Int :=
  (utcInstant chrono lexical).map timestampMicros

/-- The days of an `xsd:date` text. -/
def readDays (chrono : Chrono) (lexical : Text) : Option Int := chrono.parseDate (trim lexical)

def decodeInteger (id : Int) : Int := decodeSigned id
def decodeDatetimeMicros (id : Int) : Int := decodeSigned id
def decodeDateDays (id : Int) : Int := decodeSigned id

theorem tryEncodeDatetime_eq (chrono : Chrono) :
    tryEncodeDatetime chrono =
      fun lexical => (readMicros chrono lexical).bind (packSigned typeDatetime) := by
  funext lexical
  rw [tryEncodeDatetime, readMicros, Option.bind_map]
  rfl

/-- Every encoder with its type code. -/
def inlineEncoders (chrono : Chrono) : List (Nat × (Text → Option Int)) :=
  [(typeInteger, tryEncodeInteger), (typeBoolean, tryEncodeBoolean),
    (typeDatetime, tryEncodeDatetime chrono), (typeDate, tryEncodeDate chrono)]

/-- The decimal form of a 64-bit integer. -/
theorem readInteger_toString {v : Int} (word : -2 ^ 63 ≤ v ∧ v < 2 ^ 63) :
    readInteger (toString v).toList = some v := by
  have plain : trim (toString v).toList = (toString v).toList :=
    trim_of_plain fun _ member => mem_toString_int member
  rw [readInteger, plain, parseI64, Option.filter_eq_some_iff]
  exact ⟨parseInteger_toString v, decide_eq_true word⟩

theorem tryEncodeBoolean_inline {lexical : Text} {id : Int}
    (encoded : tryEncodeBoolean lexical = some id) : id < 0 ∧ unpackType id = typeBoolean := by
  obtain ⟨b, -, rfl⟩ := tryEncodeBoolean_eq_some.mp encoded
  have spec := pack_boolean b
  exact ⟨spec.1, spec.2.1⟩

section Encoders

variable (chrono : Chrono)

theorem lawful_tryEncodeInteger : Lawful typeInteger readInteger tryEncodeInteger decodeInteger :=
  lawful_packSigned (by decide) readInteger

theorem lawful_tryEncodeDatetime :
    Lawful typeDatetime (readMicros chrono) (tryEncodeDatetime chrono) decodeDatetimeMicros := by
  rw [tryEncodeDatetime_eq]
  exact lawful_packSigned (by decide) (readMicros chrono)

theorem lawful_tryEncodeDate :
    Lawful typeDate (readDays chrono) (tryEncodeDate chrono) decodeDateDays :=
  lawful_packSigned (by decide) (readDays chrono)

/-- Whatever an encoder returns carries its type code and the inline flag. -/
theorem inlineEncoders_inline {encoder : Nat × (Text → Option Int)}
    (member : encoder ∈ inlineEncoders chrono) {lexical : Text} {id : Int}
    (encoded : encoder.2 lexical = some id) : id < 0 ∧ unpackType id = encoder.1 := by
  simp only [inlineEncoders, List.mem_cons, List.not_mem_nil, or_false] at member
  obtain rfl | rfl | rfl | rfl := member
  · exact lawful_tryEncodeInteger.inline encoded
  · exact tryEncodeBoolean_inline encoded
  · exact (lawful_tryEncodeDatetime chrono).inline encoded
  · exact (lawful_tryEncodeDate chrono).inline encoded

/-- The laws of inline ids. -/
theorem inlineIds_lawful :
    (∀ v : Int, -2 ^ 63 ≤ v ∧ v < 2 ^ 63 →
      ((tryEncodeInteger (toString v).toList).isSome ↔ -2 ^ 55 ≤ v ∧ v ≤ 2 ^ 55 - 1)) ∧
    (∀ v id, tryEncodeInteger (toString v).toList = some id →
      id < 0 ∧ unpackType id = 0 ∧ decodeInteger id = v) ∧
    (∀ v₁ v₂ id₁ id₂ : Int, tryEncodeInteger (toString v₁).toList = some id₁ →
      tryEncodeInteger (toString v₂).toList = some id₂ → (id₁ < id₂ ↔ v₁ < v₂)) ∧
    Lawful typeInteger readInteger tryEncodeInteger decodeInteger ∧
    Lawful typeDatetime (readMicros chrono) (tryEncodeDatetime chrono) decodeDatetimeMicros ∧
    Lawful typeDate (readDays chrono) (tryEncodeDate chrono) decodeDateDays ∧
    (∀ c₁ c₂ b₁ b₂, c₁ < 2 ^ 7 → c₂ < 2 ^ 7 → c₁ ≠ c₂ → pack c₁ b₁ ≠ pack c₂ b₂) ∧
    (∀ e₁ ∈ inlineEncoders chrono, ∀ e₂ ∈ inlineEncoders chrono,
      ∀ lexical₁ lexical₂ id₁ id₂, e₁.2 lexical₁ = some id₁ → e₂.2 lexical₂ = some id₂ →
        e₁.1 ≠ e₂.1 → id₁ ≠ id₂) ∧
    (∀ e ∈ inlineEncoders chrono, ∀ lexical (id dictionaryId : Int), e.2 lexical = some id →
      0 < dictionaryId → id ≠ dictionaryId) := by
  have integers := lawful_tryEncodeInteger
  have word : ∀ {v id : Int}, tryEncodeInteger (toString v).toList = some id →
      readInteger (toString v).toList = some v := by
    intro v id encoded
    obtain ⟨w, value, fits, -⟩ := tryEncodeInteger_eq_some.mp encoded
    have plain : trim (toString v).toList = (toString v).toList :=
      trim_of_plain fun _ member => mem_toString_int member
    rw [plain, parseInteger_toString] at value
    cases value
    have lower := fits.1
    have upper := fits.2
    unfold integerOffset at lower upper
    apply readInteger_toString
    omega
  refine ⟨?_, ?_, ?_, integers, lawful_tryEncodeDatetime chrono, lawful_tryEncodeDate chrono,
    ?_, ?_, ?_⟩
  · intro v bounds
    exact integers.encodes (readInteger_toString bounds)
  · intro v id encoded
    have inline := integers.inline encoded
    exact ⟨inline.1, inline.2, integers.decodes encoded (word encoded)⟩
  · intro v₁ v₂ id₁ id₂ encoded₁ encoded₂
    exact integers.ordered encoded₁ encoded₂ (word encoded₁) (word encoded₂)
  · intro c₁ c₂ b₁ b₂ type₁ type₂ differ same
    apply differ
    have types := congrArg unpackType same
    rwa [unpackType_pack_masked type₁, unpackType_pack_masked type₂] at types
  · intro e₁ member₁ e₂ member₂ lexical₁ lexical₂ id₁ id₂ encoded₁ encoded₂ differ same
    have inline₁ := inlineEncoders_inline chrono member₁ encoded₁
    have inline₂ := inlineEncoders_inline chrono member₂ encoded₂
    apply differ
    rw [← inline₁.2, ← inline₂.2, same]
  · intro e member lexical id dictionaryId encoded positive same
    have inline := inlineEncoders_inline chrono member encoded
    omega

end Encoders

end PgRipple.Dictionary
