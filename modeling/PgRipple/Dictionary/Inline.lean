import PgRipple.Dictionary.Term
import Mathlib.Algebra.Order.Ring.Int

/-!
# Inline values

Integers, booleans, UTC date-times and dates of moderate size have no dictionary row.
Their id is the value itself: bit 63 is set, seven bits hold a type code, and 56 bits
hold the value, shifted so that it is not negative. Nine integer datatypes share one
type code, and a date-time is kept in microseconds.

Text is read with the standard library for integers and with `chrono` for date-times
and dates; the latter is a parameter.
-/

namespace PgRipple.Dictionary

def inlineFlag : Nat := 2 ^ 63
def typeShift : Nat := 56
def valueMask : Nat := 2 ^ 56 - 1
def integerOffset : Int := 2 ^ 55

def typeInteger : Nat := 0
def typeBoolean : Nat := 1
def typeDatetime : Nat := 2
def typeDate : Nat := 3

/-- The cast `u64 as i64`. -/
def asI64 (n : Nat) : Int := if n < 2 ^ 63 then n else n - 2 ^ 64

/-- The cast `i64 as u64`. -/
def asU64 (i : Int) : Nat := (i % 2 ^ 64).toNat

def pack (typeCode valueBits : Nat) : Int :=
  asI64 (inlineFlag ||| (typeCode <<< typeShift) ||| (valueBits &&& valueMask))

def unpackType (id : Int) : Nat := (asU64 id >>> typeShift) &&& 0x7F

def unpackValueBits (id : Int) : Nat := asU64 id &&& valueMask

def isInline (id : Int) : Bool := id < 0

section Pack

variable {typeCode valueBits : Nat}

/-- The three fields do not overlap. -/
theorem pack_eq (type : typeCode < 2 ^ 7) (value : valueBits < 2 ^ 56) :
    pack typeCode valueBits = typeCode * 2 ^ 56 + valueBits - 2 ^ 63 := by
  have masked : valueBits &&& valueMask = valueBits := by
    rw [valueMask, Nat.and_two_pow_sub_one_eq_mod, Nat.mod_eq_of_lt value]
  have low : (typeCode <<< typeShift) ||| valueBits = typeCode * 2 ^ 56 + valueBits := by
    rw [typeShift, ← Nat.shiftLeft_add_eq_or_of_lt value, Nat.shiftLeft_eq]
  have high : (2 ^ 63 : Nat) ||| (typeCode * 2 ^ 56 + valueBits) =
      2 ^ 63 + (typeCode * 2 ^ 56 + valueBits) := by
    have below : typeCode * 2 ^ 56 + valueBits < 2 ^ 63 := by omega
    have := Nat.shiftLeft_add_eq_or_of_lt below 1
    rw [Nat.shiftLeft_eq, Nat.one_mul] at this
    exact this.symm
  have fields : inlineFlag ||| (typeCode <<< typeShift) ||| (valueBits &&& valueMask) =
      2 ^ 63 + (typeCode * 2 ^ 56 + valueBits) := by
    rw [masked, Nat.or_assoc, low, inlineFlag, high]
  rw [pack, fields, asI64, if_neg (by omega)]
  omega

theorem pack_neg (type : typeCode < 2 ^ 7) (value : valueBits < 2 ^ 56) :
    pack typeCode valueBits < 0 := by
  rw [pack_eq type value]
  omega

theorem asU64_pack (type : typeCode < 2 ^ 7) (value : valueBits < 2 ^ 56) :
    asU64 (pack typeCode valueBits) = 2 ^ 63 + typeCode * 2 ^ 56 + valueBits := by
  rw [pack_eq type value, asU64]
  omega

theorem unpackType_pack (type : typeCode < 2 ^ 7) (value : valueBits < 2 ^ 56) :
    unpackType (pack typeCode valueBits) = typeCode := by
  have mask : (0x7F : Nat) = 2 ^ 7 - 1 := rfl
  rw [unpackType, asU64_pack type value, typeShift, Nat.shiftRight_eq_div_pow, mask,
    Nat.and_two_pow_sub_one_eq_mod]
  omega

theorem unpackValueBits_pack (type : typeCode < 2 ^ 7) (value : valueBits < 2 ^ 56) :
    unpackValueBits (pack typeCode valueBits) = valueBits := by
  rw [unpackValueBits, asU64_pack type value, valueMask, Nat.and_two_pow_sub_one_eq_mod]
  omega

end Pack

/-- A value fits into the 56 bits. -/
def Fits (v : Int) : Prop := -integerOffset ≤ v ∧ v ≤ integerOffset - 1

instance (v : Int) : Decidable (Fits v) := inferInstanceAs (Decidable (_ ∧ _))

/-- Shift and pack, if the value fits. -/
def packSigned (typeCode : Nat) (v : Int) : Option Int :=
  if Fits v then some (pack typeCode (v + integerOffset).toNat) else none

/-- The value that `decode_integer`, `decode_datetime_micros` and `decode_date_days` read. -/
def decodeSigned (id : Int) : Int := unpackValueBits id - integerOffset

theorem packSigned_eq_some {typeCode : Nat} {v id : Int} (type : typeCode < 2 ^ 7)
    (h : packSigned typeCode v = some id) :
    id < 0 ∧ unpackType id = typeCode ∧ decodeSigned id = v ∧ Fits v := by
  unfold packSigned at h
  split at h
  · rename_i fits
    cases h
    have value : (v + integerOffset).toNat < 2 ^ 56 := by
      have lower := fits.1
      have upper := fits.2
      unfold integerOffset at lower upper ⊢
      omega
    refine ⟨pack_neg type value, unpackType_pack type value, ?_, fits⟩
    rw [decodeSigned, unpackValueBits_pack type value]
    have lower := fits.1
    omega
  · cases h

theorem packSigned_of_fits (typeCode : Nat) {v : Int} (fits : Fits v) :
    ∃ id, packSigned typeCode v = some id := ⟨_, if_pos fits⟩

def xsd (name : String) : Text := "http://www.w3.org/2001/XMLSchema#".toList ++ name.toList

/-- The integer datatypes that are inlined. -/
inductive IntegerType
  | integer
  | long
  | int
  | short
  | byte
  | nonNegativeInteger
  | positiveInteger
  | negativeInteger
  | nonPositiveInteger
  deriving DecidableEq, Repr

namespace IntegerType

def all : List IntegerType :=
  [.integer, .long, .int, .short, .byte, .nonNegativeInteger, .positiveInteger,
    .negativeInteger, .nonPositiveInteger]

def iri : IntegerType → Text
  | .integer => xsd "integer"
  | .long => xsd "long"
  | .int => xsd "int"
  | .short => xsd "short"
  | .byte => xsd "byte"
  | .nonNegativeInteger => xsd "nonNegativeInteger"
  | .positiveInteger => xsd "positiveInteger"
  | .negativeInteger => xsd "negativeInteger"
  | .nonPositiveInteger => xsd "nonPositiveInteger"

/-- The value space of the datatype, as XML Schema defines it. -/
def InValueSpace (v : Int) : IntegerType → Prop
  | .integer => True
  | .long => -2 ^ 63 ≤ v ∧ v < 2 ^ 63
  | .int => -2 ^ 31 ≤ v ∧ v < 2 ^ 31
  | .short => -2 ^ 15 ≤ v ∧ v < 2 ^ 15
  | .byte => -2 ^ 7 ≤ v ∧ v < 2 ^ 7
  | .nonNegativeInteger => 0 ≤ v
  | .positiveInteger => 0 < v
  | .negativeInteger => v < 0
  | .nonPositiveInteger => v ≤ 0

instance (v : Int) : (t : IntegerType) → Decidable (t.InValueSpace v)
  | .integer => isTrue trivial
  | .long => inferInstanceAs (Decidable (_ ∧ _))
  | .int => inferInstanceAs (Decidable (_ ∧ _))
  | .short => inferInstanceAs (Decidable (_ ∧ _))
  | .byte => inferInstanceAs (Decidable (_ ∧ _))
  | .nonNegativeInteger => inferInstanceAs (Decidable (0 ≤ v))
  | .positiveInteger => inferInstanceAs (Decidable (0 < v))
  | .negativeInteger => inferInstanceAs (Decidable (v < 0))
  | .nonPositiveInteger => inferInstanceAs (Decidable (v ≤ 0))

end IntegerType

/-- The cases of the `match` on the datatype IRI. -/
inductive Datatype
  | integer (type : IntegerType)
  | boolean
  | dateTime
  | date
  | other
  deriving DecidableEq, Repr

def Datatype.ofIri (iri : Text) : Datatype :=
  match IntegerType.all.find? fun t => t.iri = iri with
  | some t => .integer t
  | none =>
    if iri = xsd "boolean" then .boolean
    else if iri = xsd "dateTime" then .dateTime
    else if iri = xsd "date" then .date
    else .other

/-- Decimal digits, at least one. -/
def parseDigits (ds : Text) : Option Nat :=
  if ds ≠ [] ∧ ds.all Char.isDigit then some (Nat.ofDigitChars 10 ds 0) else none

/-- An optional sign and decimal digits. -/
def parseInteger : Text → Option Int
  | '-' :: ds => (parseDigits ds).map fun (n : Nat) => -(n : Int)
  | '+' :: ds => (parseDigits ds).map fun (n : Nat) => (n : Int)
  | ds => (parseDigits ds).map fun (n : Nat) => (n : Int)

/-- `str::parse::<i64>`. -/
def parseI64 (s : Text) : Option Int :=
  (parseInteger s).filter fun v => -2 ^ 63 ≤ v ∧ v < 2 ^ 63

/-- What is used of `chrono`. A date-time is given by its seconds since the epoch and its
nanoseconds, which reach beyond a second in a leap second; a date by its days since the
epoch. `formatMicros` prints a UTC time with six fractional digits. -/
structure Chrono where
  parseDateTime : Text → Option (Int × Nat)
  parseDate : Text → Option Int
  formatMicros : Int → Text
  formatDays : Int → Text
  /-- A printed time is read back. -/
  parse_formatMicros : ∀ m, Fits m →
    parseDateTime (trim (formatMicros m)) = some (m / 10 ^ 6, (m % 10 ^ 6).toNat * 1000)
  /-- A printed date is read back. -/
  parse_formatDays : ∀ s n, parseDate s = some n → parseDate (trim (formatDays n)) = some n
  /-- Printed times and dates consist of digits and punctuation. -/
  plain_formatMicros : ∀ m, ∀ c ∈ formatMicros m, escapeCode c = none
  plain_formatDays : ∀ n, ∀ c ∈ formatDays n, escapeCode c = none

/-- `DateTime::timestamp_micros`. -/
def timestampMicros (instant : Int × Nat) : Int := instant.1 * 10 ^ 6 + (instant.2 / 1000 : Nat)

/-- The test for an offset other than zero: the last sign, if it comes after the hours. -/
def hasNonzeroOffset (trimmed : Text) : Bool :=
  let sign := fun c : Char => c == '+' || c == '-'
  match trimmed.reverse.findIdx? sign, trimmed.findIdx? (· == 'T') with
  | some back, some tPos =>
    let pos := trimmed.length - 1 - back
    if pos > tPos + 3 then
      let offset := trimmed.drop pos
      offset != "+00:00".toList && offset != "-00:00".toList
    else false
  | _, _ => false

def tryEncodeInteger (lexical : Text) : Option Int :=
  (parseI64 (trim lexical)).bind (packSigned typeInteger)

def parseBoolean (s : Text) : Option Bool :=
  if s = "true".toList ∨ s = "1".toList then some true
  else if s = "false".toList ∨ s = "0".toList then some false
  else none

def tryEncodeBoolean (lexical : Text) : Option Int :=
  (parseBoolean (trim lexical)).map fun b => pack typeBoolean (if b then 1 else 0)

section Encode

variable (chrono : Chrono)

/-- The instant of a date-time that is considered for inlining. -/
def utcInstant (lexical : Text) : Option (Int × Nat) :=
  let trimmed := trim lexical
  if hasNonzeroOffset trimmed then none else chrono.parseDateTime trimmed

def tryEncodeDatetime (lexical : Text) : Option Int :=
  (utcInstant chrono lexical).bind fun instant => packSigned typeDatetime (timestampMicros instant)

def tryEncodeDate (lexical : Text) : Option Int :=
  (chrono.parseDate (trim lexical)).bind (packSigned typeDate)

/-- The inline id of a typed literal, if it has one. -/
def tryEncodeInline (lexical datatype : Text) : Option Int :=
  match Datatype.ofIri datatype with
  | .integer _ => tryEncodeInteger lexical
  | .boolean => tryEncodeBoolean lexical
  | .dateTime => tryEncodeDatetime chrono lexical
  | .date => tryEncodeDate chrono lexical
  | .other => none

def writeTyped (value datatype : Text) : Text :=
  '"' :: value ++ "\"^^<".toList ++ datatype ++ ['>']

/-- `format_inline`. -/
def formatInline (id : Int) : Text :=
  let type := unpackType id
  if type = typeInteger then
    writeTyped (toString (decodeSigned id)).toList (xsd "integer")
  else if type = typeBoolean then
    writeTyped (if unpackValueBits id ≠ 0 then "true".toList else "false".toList) (xsd "boolean")
  else if type = typeDatetime then
    writeTyped (chrono.formatMicros (decodeSigned id)) (xsd "dateTime")
  else if type = typeDate then
    writeTyped (chrono.formatDays (decodeSigned id)) (xsd "date")
  else
    writeTyped ("inline:".toList ++ (toString type).toList ++ ":".toList ++
      (toString (decodeSigned id)).toList) "urn:pg_ripple:inline".toList

end Encode

section Spec

variable {chrono : Chrono} {lexical : Text} {id : Int}

theorem parseI64_of_fits {s : Text} {v : Int} (fits : Fits v) :
    parseI64 s = some v ↔ parseInteger s = some v := by
  have inRange : -2 ^ 63 ≤ v ∧ v < 2 ^ 63 := by
    have lower := fits.1
    have upper := fits.2
    unfold integerOffset at lower upper
    omega
  rw [parseI64, Option.filter_eq_some_iff]
  exact and_iff_left (decide_eq_true inRange)

theorem tryEncodeInteger_eq_some :
    tryEncodeInteger lexical = some id ↔
      ∃ v, parseInteger (trim lexical) = some v ∧ Fits v ∧ packSigned typeInteger v = some id := by
  rw [tryEncodeInteger, Option.bind_eq_some_iff]
  constructor
  · rintro ⟨v, parsed, packed⟩
    have fits := (packSigned_eq_some (by decide) packed).2.2.2
    exact ⟨v, (parseI64_of_fits fits).mp parsed, fits, packed⟩
  · rintro ⟨v, parsed, fits, packed⟩
    exact ⟨v, (parseI64_of_fits fits).mpr parsed, packed⟩

theorem tryEncodeBoolean_eq_some :
    tryEncodeBoolean lexical = some id ↔
      ∃ b, parseBoolean (trim lexical) = some b ∧ pack typeBoolean (if b then 1 else 0) = id := by
  rw [tryEncodeBoolean, Option.map_eq_some_iff]

theorem pack_boolean (b : Bool) :
    pack typeBoolean (if b then 1 else 0) < 0 ∧
      unpackType (pack typeBoolean (if b then 1 else 0)) = typeBoolean ∧
      (unpackValueBits (pack typeBoolean (if b then 1 else 0)) ≠ 0 ↔ b = true) := by
  have value : (if b then 1 else 0) < 2 ^ 56 := by
    cases b <;> decide
  refine ⟨pack_neg (by decide) value, unpackType_pack (by decide) value, ?_⟩
  rw [unpackValueBits_pack (by decide) value]
  cases b <;> simp

theorem tryEncodeDatetime_eq_some :
    tryEncodeDatetime chrono lexical = some id ↔
      ∃ instant, utcInstant chrono lexical = some instant ∧
        packSigned typeDatetime (timestampMicros instant) = some id := by
  rw [tryEncodeDatetime, Option.bind_eq_some_iff]

theorem tryEncodeDate_eq_some :
    tryEncodeDate chrono lexical = some id ↔
      ∃ n, chrono.parseDate (trim lexical) = some n ∧ packSigned typeDate n = some id := by
  rw [tryEncodeDate, Option.bind_eq_some_iff]

theorem parseDateTime_of_utcInstant {instant : Int × Nat}
    (h : utcInstant chrono lexical = some instant) :
    chrono.parseDateTime (trim lexical) = some instant := by
  simp only [utcInstant] at h
  split at h
  · cases h
  · exact h

/-- Values that were packed under one id are equal. -/
theorem packSigned_inj {c₁ c₂ : Nat} {v₁ v₂ : Int} (h₁ : c₁ < 2 ^ 7) (h₂ : c₂ < 2 ^ 7)
    (p₁ : packSigned c₁ v₁ = some id) (p₂ : packSigned c₂ v₂ = some id) :
    c₁ = c₂ ∧ v₁ = v₂ := by
  have first := packSigned_eq_some h₁ p₁
  have second := packSigned_eq_some h₂ p₂
  exact ⟨first.2.1.symm.trans second.2.1, first.2.2.1.symm.trans second.2.2.1⟩

end Spec

theorem Datatype.ofIri_integer {iri : Text} {t : IntegerType}
    (h : Datatype.ofIri iri = .integer t) :
    iri = t.iri := by
  unfold Datatype.ofIri at h
  split at h
  · rename_i t' found
    cases h
    simpa [eq_comm] using List.find?_some found
  · split at h
    · cases h
    · split at h
      · cases h
      · split at h <;> cases h

theorem Datatype.ofIri_boolean {iri : Text} (h : Datatype.ofIri iri = .boolean) :
    iri = xsd "boolean" := by
  unfold Datatype.ofIri at h
  split at h
  · cases h
  · split at h
    · assumption
    · split at h
      · cases h
      · split at h <;> cases h

theorem Datatype.ofIri_dateTime {iri : Text} (h : Datatype.ofIri iri = .dateTime) :
    iri = xsd "dateTime" := by
  unfold Datatype.ofIri at h
  split at h
  · cases h
  · split at h
    · cases h
    · split at h
      · assumption
      · split at h <;> cases h

theorem Datatype.ofIri_date {iri : Text} (h : Datatype.ofIri iri = .date) :
    iri = xsd "date" := by
  unfold Datatype.ofIri at h
  split at h
  · cases h
  · split at h
    · cases h
    · split at h
      · cases h
      · split at h
        · assumption
        · cases h

theorem parseDigits_toDigits (n : Nat) : parseDigits (Nat.toDigits 10 n) = some n := by
  have digits : (Nat.toDigits 10 n).all Char.isDigit := by
    rw [List.all_eq_true]
    intro c hc
    exact Nat.isDigit_of_mem_toDigits (by decide) (by decide) hc
  rw [parseDigits, if_pos ⟨Nat.toDigits_ne_nil, digits⟩, Nat.ofDigitChars_ten_toDigits]

/-- A printed integer consists of digits after an optional minus sign. -/
theorem toString_int (v : Int) :
    (toString v).toList =
      if v < 0 then '-' :: Nat.toDigits 10 v.natAbs else Nat.toDigits 10 v.natAbs := by
  cases v with
  | ofNat n => simp [Int.toString_eq_repr, Int.repr, Nat.toList_repr]
  | negSucc n => simp [Int.toString_eq_repr, Int.repr, Nat.toList_repr, Int.negSucc_lt_zero]

theorem mem_toString_int {v : Int} {c : Char} (h : c ∈ (toString v).toList) :
    c.isAlphanum ∨ c = '-' := by
  have digit {n : Nat} (h : c ∈ Nat.toDigits 10 n) : c.isAlphanum ∨ c = '-' := by
    have := Nat.isDigit_of_mem_toDigits (by decide) (by decide) h
    exact .inl (by simp [Char.isAlphanum, this])
  rw [toString_int] at h
  split at h
  · obtain rfl | h := List.mem_cons.mp h
    · exact .inr rfl
    · exact digit h
  · exact digit h

theorem trim_of_plain {s : Text} (plain : ∀ c ∈ s, c.isAlphanum ∨ c = '-') : trim s = s := by
  cases s with
  | nil => rfl
  | cons c cs =>
    have last : (c :: cs).getLast? = some ((c :: cs).getLast (by simp)) :=
      List.getLast?_eq_getLast_of_ne_nil (by simp)
    exact trim_eq_self rfl last (isWhitespace_alphanum (plain c List.mem_cons_self))
      (isWhitespace_alphanum (plain _ (List.getLast_mem _)))

theorem escapeCode_plain {c : Char} (h : c.isAlphanum ∨ c = '-') : escapeCode c = none := by
  refine Option.eq_none_iff_forall_ne_some.mpr fun k coded => ?_
  obtain ⟨rfl, -⟩ | ⟨rfl, -⟩ | ⟨rfl, -⟩ | ⟨rfl, -⟩ | ⟨rfl, -⟩ := escapeCode_eq_some coded <;>
    exact absurd h (by decide)

theorem parseInteger_digits {ds : Text} (digits : ∀ c ∈ ds, c.isDigit) :
    parseInteger ds = (parseDigits ds).map fun (n : Nat) => (n : Int) := by
  unfold parseInteger
  split
  · exact absurd (digits '-' List.mem_cons_self) (by decide)
  · exact absurd (digits '+' List.mem_cons_self) (by decide)
  · rfl

theorem parseInteger_toString (v : Int) : parseInteger (toString v).toList = some v := by
  rw [toString_int]
  split
  · rename_i negative
    show (parseDigits (Nat.toDigits 10 v.natAbs)).map (fun (n : Nat) => -(n : Int)) = some v
    rw [parseDigits_toDigits, Option.map_some]
    congr 1
    omega
  · rename_i nonneg
    rw [parseInteger_digits fun c hc => Nat.isDigit_of_mem_toDigits (by decide) (by decide) hc,
      parseDigits_toDigits, Option.map_some]
    congr 1
    omega

end PgRipple.Dictionary
