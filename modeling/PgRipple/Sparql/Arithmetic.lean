import PgRipple.Dictionary.Inline

/-!
# Arithmetic on ids

`+`, `-` and `*` work on the ids of their operands. If both ids are negative, the values
are taken out of the low 56 bits, whatever the type code says, computed in 64 bits, and
packed again under a mask of 56 bits. Otherwise the operands are decoded as numbers and the
result is encoded as a literal.

So the result is right if both operands are integers and their sum, difference or product
fits into 56 bits again.
-/

namespace PgRipple.Sparql

open Dictionary

/-- The value of an expression of type `bigint`: the query can also fail. -/
inductive BigintResult where
  | null
  | value (n : Int)
  | outOfRange
  deriving DecidableEq, Repr

/-- The range check of 64-bit arithmetic. -/
def checkBigint (n : Int) : Option Int := if -2 ^ 63 ≤ n ∧ n < 2 ^ 63 then some n else none

/-- `({sql} & 72057594037927935) - 36028797018963968`. -/
def inlineIntExtract (sql : Int) : Int := (asU64 sql &&& valueMask : Nat) - integerOffset

/-- `~9223372036854775807 | (({sql} + 36028797018963968) & 72057594037927935)`, for a value
that may be out of range. -/
def inlineIntPack (sql : Option Int) : BigintResult :=
  match sql.bind fun n => checkBigint (n + integerOffset) with
  | some n => .value (asI64 (inlineFlag ||| (asU64 n &&& valueMask)))
  | none => .outOfRange

/-- `inline_int_negate`. -/
def inlineIntNegate (sql : Option Int) : BigintResult :=
  match sql with
  | none => .null
  | some n => if 0 ≤ n then .null else inlineIntPack (checkBigint (-inlineIntExtract n))

inductive ArithOp where
  | add
  | sub
  | mul
  deriving DecidableEq, Repr

def ArithOp.eval : ArithOp → Int → Int → Int
  | .add => (· + ·)
  | .sub => (· - ·)
  | .mul => (· * ·)

/-- What the slow path takes from PostgreSQL and from the dictionary. Numbers are those of
type `numeric`. -/
structure NumericServices (ν : Type) where
  ofInt : Int → ν
  eval : ArithOp → ν → ν → ν
  /-- The cast to `text`. -/
  text : ν → Text
  /-- `trim_scale({text}::numeric)::text`. -/
  trimScale : Text → Text
  /-- `xsd_double_fmt({text}::float8::text)`. -/
  formatDouble : Text → Text
  /-- The datatype of a dictionary row. -/
  datatype : Int → Option Text
  /-- `decode_numeric_spi`, for an id of the dictionary. -/
  decode : Int → Option ν
  encodeTypedLiteral : Text → Text → Int

section Arith

variable {ν : Type} (sv : NumericServices ν) (op : ArithOp)

/-- `tc_a` and `tc_b`. -/
def typeRank (sql : Int) : Int :=
  if sql < 0 then 0
  else
    match sv.datatype sql with
    | none => -1
    | some d =>
      if d = xsd "double" ∨ d = xsd "float" then 2
      else if d = xsd "integer" then 0
      else if d = xsd "decimal" then 1
      else -1

/-- `decode_a` and `decode_b`. -/
def decodeOperand (sql : Int) : Option ν :=
  if sql < 0 then some (sv.ofInt (inlineIntExtract sql)) else sv.decode sql

/-- The text and the datatype of the result. -/
def encodeResult (tc : Int) (result : Text) : Int :=
  if 2 ≤ tc then sv.encodeTypedLiteral (sv.formatDouble result) (xsd "double")
  else if tc = 1 then
    sv.encodeTypedLiteral (if '.' ∈ result then sv.trimScale result else result ++ ".0".toList)
      (xsd "decimal")
  else sv.encodeTypedLiteral result (xsd "integer")

/-- `rdf_numeric_arith`. -/
def rdfNumericArith (la ra : Option Int) : BigintResult :=
  match la, ra with
  | some la, some ra =>
    if la < 0 ∧ ra < 0 then
      inlineIntPack (checkBigint (op.eval (inlineIntExtract la) (inlineIntExtract ra)))
    else
      let tc := max (typeRank sv la) (typeRank sv ra)
      match decodeOperand sv la, decodeOperand sv ra with
      | some a, some b =>
        if 0 ≤ tc then .value (encodeResult sv tc (sv.text (sv.eval op a b))) else .null
      | _, _ => .null
  | _, _ => .null

end Arith

/-- The inline id of an integer. -/
def inlineInteger (n : Int) : Int := pack typeInteger (n + integerOffset).toNat

/-- An inline id of another type. -/
def OtherInline (sql : Option Int) : Prop :=
  ∃ id, sql = some id ∧ id < 0 ∧ unpackType id ≠ typeInteger

section Meaning

variable {ν : Type} (sv : NumericServices ν)

/-- The id is that of an integer, inline or in the dictionary. -/
def DenotesInteger (id n : Int) : Prop :=
  (id < 0 ∧ unpackType id = typeInteger ∧ decodeSigned id = n) ∨
    (0 ≤ id ∧ sv.datatype id = some (xsd "integer") ∧ sv.decode id = some (sv.ofInt n))

/-- The operand is unbound or no number. -/
def NoNumber (sql : Option Int) : Prop :=
  sql = none ∨ ∃ id, sql = some id ∧ 0 ≤ id ∧ sv.decode id = none

/-- Of two integers the result is right, and an operand of another type is an error. -/
structure ArithRight (op : ArithOp) (la ra : Option Int) : Prop where
  exact : ∀ a b, Fits a → Fits b → la = some (inlineInteger a) → ra = some (inlineInteger b) →
    ∃ id, rdfNumericArith sv op la ra = .value id ∧ DenotesInteger sv id (op.eval a b)
  error : OtherInline la ∨ OtherInline ra → rdfNumericArith sv op la ra = .null

/-- The same for the negation. -/
structure NegateRight (sql : Option Int) : Prop where
  exact : ∀ a, Fits a → sql = some (inlineInteger a) →
    ∃ id, inlineIntNegate sql = .value id ∧ DenotesInteger sv id (-a)
  error : OtherInline sql → inlineIntNegate sql = .null

end Meaning

section Exact

variable {ν : Type} {sv : NumericServices ν} {op : ArithOp} {la ra : Option Int} {n : Int}

theorem inlineInteger_spec (fits : Fits n) :
    inlineInteger n < 0 ∧ unpackType (inlineInteger n) = typeInteger ∧
      inlineIntExtract (inlineInteger n) = n := by
  have packed : packSigned typeInteger n = some (inlineInteger n) := if_pos fits
  obtain ⟨negative, type, value, -⟩ := packSigned_eq_some (by decide) packed
  exact ⟨negative, type, value⟩

theorem asU64_and_mask (n : Int) : asU64 n &&& valueMask = (n % 2 ^ 56).toNat := by
  rw [asU64, valueMask, Nat.and_two_pow_sub_one_eq_mod]
  omega

theorem inlineIntPack_eq (inRange : -2 ^ 63 ≤ n + integerOffset ∧ n + integerOffset < 2 ^ 63) :
    inlineIntPack (some n) = .value (pack typeInteger ((n + integerOffset) % 2 ^ 56).toNat) := by
  have checked : checkBigint (n + integerOffset) = some (n + integerOffset) := if_pos inRange
  have small : ((n + integerOffset) % 2 ^ 56).toNat &&& valueMask =
      ((n + integerOffset) % 2 ^ 56).toNat := by
    rw [valueMask, Nat.and_two_pow_sub_one_eq_mod]
    omega
  have same : inlineIntPack (some n) =
      .value (asI64 (inlineFlag ||| (asU64 (n + integerOffset) &&& valueMask))) := by
    rw [inlineIntPack, Option.bind_some, checked]
  rw [same, asU64_and_mask, pack, small]
  rfl

theorem inlineIntPack_ne_null (sql : Option Int) : inlineIntPack sql ≠ .null := by
  rw [inlineIntPack]
  split <;> exact BigintResult.noConfusion

/-- A result that is packed is right just if it fits into 56 bits. -/
theorem exists_denotes_pack_iff :
    (∃ id, inlineIntPack (checkBigint n) = .value id ∧ DenotesInteger sv id n) ↔ Fits n := by
  constructor
  · rintro ⟨id, packed, denotes⟩
    by_cases small : -2 ^ 63 ≤ n ∧ n < 2 ^ 63
    · by_cases shifted : -2 ^ 63 ≤ n + integerOffset ∧ n + integerOffset < 2 ^ 63
      · rw [checkBigint, if_pos small, inlineIntPack_eq shifted] at packed
        cases packed
        have value : ((n + integerOffset) % 2 ^ 56).toNat < 2 ^ 56 := by omega
        obtain ⟨-, -, decoded⟩ | ⟨positive, -⟩ := denotes
        · rw [decodeSigned, unpackValueBits_pack (by decide) value] at decoded
          rw [Fits]
          unfold integerOffset at decoded ⊢
          omega
        · have := pack_neg (by decide : typeInteger < 2 ^ 7) value
          omega
      · have failed : checkBigint (n + integerOffset) = none := if_neg shifted
        rw [checkBigint, if_pos small, inlineIntPack, Option.bind_some, failed] at packed
        cases packed
    · rw [checkBigint, if_neg small] at packed
      cases packed
  · intro fits
    obtain ⟨lower, upper⟩ := fits
    unfold integerOffset at lower upper
    have small : -2 ^ 63 ≤ n ∧ n < 2 ^ 63 := by omega
    have shifted : -2 ^ 63 ≤ n + integerOffset ∧ n + integerOffset < 2 ^ 63 := by
      unfold integerOffset
      omega
    have low : (n + integerOffset) % 2 ^ 56 = n + integerOffset := by
      unfold integerOffset
      omega
    rw [checkBigint, if_pos small, inlineIntPack_eq shifted, low]
    obtain ⟨negative, type, value⟩ := inlineInteger_spec ⟨lower, upper⟩
    exact ⟨_, rfl, Or.inl ⟨negative, type, value⟩⟩

/-- On two negative ids nothing is looked at but the low bits. -/
theorem rdfNumericArith_of_neg {a b : Int} (ha : a < 0) (hb : b < 0) :
    rdfNumericArith sv op (some a) (some b) =
      inlineIntPack (checkBigint (op.eval (inlineIntExtract a) (inlineIntExtract b))) :=
  if_pos ⟨ha, hb⟩

/-- With a negative id on one side, the result is `NULL` just if the other side is no
number. -/
theorem rdfNumericArith_eq_null_iff (inline : (∃ a < 0, la = some a) ∨ ∃ b < 0, ra = some b) :
    rdfNumericArith sv op la ra = .null ↔ NoNumber sv la ∨ NoNumber sv ra := by
  cases la with
  | none => exact iff_of_true rfl (Or.inl (Or.inl rfl))
  | some a =>
    cases ra with
    | none => exact iff_of_true rfl (Or.inr (Or.inl rfl))
    | some b =>
      have noNumber (x : Int) : NoNumber sv (some x) ↔ decodeOperand sv x = none := by
        rw [NoNumber, decodeOperand]
        split
        · next negative => simp [negative]
        · next positive => simp [Int.not_lt.mp positive]
      rw [noNumber, noNumber]
      by_cases both : a < 0 ∧ b < 0
      · rw [rdfNumericArith_of_neg both.1 both.2, decodeOperand, decodeOperand, if_pos both.1,
          if_pos both.2]
        simp [inlineIntPack_ne_null]
      · have rank : 0 ≤ max (typeRank sv a) (typeRank sv b) := by
          obtain ⟨_, negative, same⟩ | ⟨_, negative, same⟩ := inline
          · cases same
            have zero : typeRank sv a = 0 := if_pos negative
            rw [zero]
            exact le_max_left _ _
          · cases same
            have zero : typeRank sv b = 0 := if_pos negative
            rw [zero]
            exact le_max_right _ _
        rw [rdfNumericArith, if_neg both]
        cases decodeOperand sv a with
        | none => simp
        | some x =>
          cases decodeOperand sv b with
          | none => simp
          | some y => simp [rank]

end Exact

/-- Arithmetic is right just if results of integers fit, and where one operand has another
inline type, the other operand is no number. The negation is right just if its operand is
neither the least integer nor of another inline type. -/
theorem arithRight_iff {ν : Type} (sv : NumericServices ν) (op : ArithOp) (la ra : Option Int) :
    (ArithRight sv op la ra ↔
      (∀ a b, Fits a → Fits b → la = some (inlineInteger a) → ra = some (inlineInteger b) →
        Fits (op.eval a b)) ∧
      (OtherInline la ∨ OtherInline ra → NoNumber sv la ∨ NoNumber sv ra)) ∧
    (NegateRight sv la ↔ la ≠ some (inlineInteger (-integerOffset)) ∧ ¬ OtherInline la) := by
  have exact (a b : Int) (ha : Fits a) (hb : Fits b) :
      (∃ id, rdfNumericArith sv op (some (inlineInteger a)) (some (inlineInteger b)) = .value id ∧
        DenotesInteger sv id (op.eval a b)) ↔ Fits (op.eval a b) := by
    obtain ⟨negA, -, valueA⟩ := inlineInteger_spec ha
    obtain ⟨negB, -, valueB⟩ := inlineInteger_spec hb
    rw [rdfNumericArith_of_neg negA negB, valueA, valueB]
    exact exists_denotes_pack_iff
  have inline : OtherInline la ∨ OtherInline ra →
      (∃ a < 0, la = some a) ∨ ∃ b < 0, ra = some b := by
    rintro (⟨id, same, negative, -⟩ | ⟨id, same, negative, -⟩)
    · exact Or.inl ⟨id, negative, same⟩
    · exact Or.inr ⟨id, negative, same⟩
  constructor
  · constructor
    · rintro ⟨right, error⟩
      refine ⟨?_, ?_⟩
      · rintro a b ha hb rfl rfl
        exact (exact a b ha hb).mp (right a b ha hb rfl rfl)
      · intro other
        exact (rdfNumericArith_eq_null_iff (inline other)).mp (error other)
    · rintro ⟨fits, other⟩
      refine ⟨?_, ?_⟩
      · rintro a b ha hb rfl rfl
        exact (exact a b ha hb).mpr (fits a b ha hb rfl rfl)
      · intro here
        exact (rdfNumericArith_eq_null_iff (inline here)).mpr (other here)
  · have negate {id : Int} (negative : id < 0) :
        inlineIntNegate (some id) = inlineIntPack (checkBigint (-inlineIntExtract id)) :=
      if_neg (Int.not_le.mpr negative)
    constructor
    · rintro ⟨right, error⟩
      refine ⟨?_, ?_⟩
      · rintro rfl
        have least : Fits (-integerOffset) := by decide
        obtain ⟨negative, -, value⟩ := inlineInteger_spec least
        have denotes := right _ least rfl
        rw [negate negative, value] at denotes
        exact absurd (exists_denotes_pack_iff.mp denotes) (by decide)
      · rintro other
        have null := error other
        obtain ⟨id, rfl, negative, -⟩ := other
        rw [negate negative] at null
        exact inlineIntPack_ne_null _ null
    · rintro ⟨notLeast, integer⟩
      refine ⟨?_, fun other => absurd other integer⟩
      rintro a ha rfl
      obtain ⟨negative, -, value⟩ := inlineInteger_spec ha
      rw [negate negative, value, exists_denotes_pack_iff]
      have above : a ≠ -integerOffset := by
        rintro rfl
        exact notLeast rfl
      obtain ⟨lower, upper⟩ := ha
      rw [Fits]
      omega

/-- Services with numbers that are integers and an empty dictionary. -/
def noRows : NumericServices Int where
  ofInt n := n
  eval := ArithOp.eval
  text n := (toString n).toList
  trimScale := id
  formatDouble := id
  datatype _ := none
  decode _ := none
  encodeTypedLiteral _ _ := 1

/-- The greatest inline integer plus one, and the negation of `true`. -/
theorem not_arithRight :
    ¬ ArithRight noRows .add (some (inlineInteger (2 ^ 55 - 1))) (some (inlineInteger 1)) ∧
      ¬ NegateRight noRows (some (pack typeBoolean 1)) := by
  constructor
  · intro right
    obtain ⟨id, computed, denotes⟩ := right.exact (2 ^ 55 - 1) 1 (by decide) (by decide) rfl rfl
    have least : rdfNumericArith noRows .add (some (inlineInteger (2 ^ 55 - 1)))
        (some (inlineInteger 1)) = .value (inlineInteger (-2 ^ 55)) := by decide
    rw [least] at computed
    cases computed
    obtain ⟨-, -, value⟩ | ⟨positive, -⟩ := denotes
    · exact absurd value (by decide)
    · exact absurd positive (by decide)
  · intro right
    have null := right.error ⟨pack typeBoolean 1, rfl, by decide, by decide⟩
    exact absurd null (by decide)

end PgRipple.Sparql
