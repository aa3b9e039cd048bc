import Mathlib.Data.List.Basic
import Mathlib.Tactic.Common

/-!
# UTF-8

The bytes of a text, and what a scanner of the bytes sees of it: a character below 128 is its own
byte, all bytes of any other character are at least 128, and the first byte of a character tells
how many there are. So an ASCII pattern matches the bytes where it matches the characters.
-/

namespace Utf8

/-- The bytes of a text. -/
def bytes (s : List Char) : List UInt8 := s.flatMap String.utf8EncodeChar

/-- The number of bytes of the character with this first byte. -/
def width (b : UInt8) : Nat :=
  if b < 0x80 then 1 else if b < 0xE0 then 2 else if b < 0xF0 then 3 else 4

/-- A character can begin with this byte. -/
def isLead (b : UInt8) : Bool := b < 0x80 || 0xC0 ≤ b

@[simp] theorem bytes_nil : bytes [] = [] := rfl

@[simp] theorem bytes_cons (c : Char) (s : List Char) :
    bytes (c :: s) = String.utf8EncodeChar c ++ bytes s := rfl

@[simp] theorem bytes_append (s t : List Char) : bytes (s ++ t) = bytes s ++ bytes t :=
  List.flatMap_append

/-- A statement about bytes holds if it holds of 256 numbers. -/
theorem forall_byte {P : UInt8 → Prop} (h : ∀ n : Fin 256, P ⟨⟨n⟩⟩) (b : UInt8) : P b := by
  obtain ⟨⟨n⟩⟩ := b
  exact h n

theorem tail_byte (x : UInt8) : 0x80 ≤ (x &&& 0x3f ||| 0x80) := by
  revert x
  exact forall_byte (by decide +kernel)

theorem lead_two (x : UInt8) :
    0xC0 ≤ (x &&& 0x1f ||| 0xc0) ∧ width (x &&& 0x1f ||| 0xc0) = 2 := by
  revert x
  exact forall_byte (by decide +kernel)

theorem lead_three (x : UInt8) :
    0xC0 ≤ (x &&& 0x0f ||| 0xe0) ∧ width (x &&& 0x0f ||| 0xe0) = 3 := by
  revert x
  exact forall_byte (by decide +kernel)

theorem lead_four (x : UInt8) :
    0xC0 ≤ (x &&& 0x07 ||| 0xf0) ∧ width (x &&& 0x07 ||| 0xf0) = 4 := by
  revert x
  exact forall_byte (by decide +kernel)

/-- The bytes of a character above 127. -/
def Wide (bs : List UInt8) : Prop :=
  ∃ lead rest, bs = lead :: rest ∧ 0xC0 ≤ lead ∧ width lead = rest.length + 1 ∧ rest ≠ [] ∧
    ∀ b ∈ rest, 0x80 ≤ b

/-- A character is its own byte, or has several bytes. -/
theorem encode_cases (c : Char) :
    (c.toNat < 128 ∧ String.utf8EncodeChar c = [c.toUInt8]) ∨
      (128 ≤ c.toNat ∧ Wide (String.utf8EncodeChar c)) := by
  have one : c.utf8Size = 1 ↔ c.toNat < 128 := by
    rw [Char.utf8Size_eq_one_iff, UInt32.le_iff_toNat_le]
    exact Nat.lt_succ_iff.symm
  obtain size | size | size | size := c.utf8Size_eq
  · exact .inl ⟨one.mp size, String.utf8EncodeChar_eq_singleton size⟩
  all_goals
    have large : 128 ≤ c.toNat := by
      by_contra small
      rw [one.mpr (Nat.lt_of_not_le small)] at size
      cases size
    refine .inr ⟨large, ?_⟩
  · rw [String.utf8EncodeChar_eq_cons_cons size]
    refine ⟨_, _, rfl, (lead_two _).1, (lead_two _).2, by simp, ?_⟩
    simp [tail_byte]
  · rw [String.utf8EncodeChar_eq_cons_cons_cons size]
    refine ⟨_, _, rfl, (lead_three _).1, (lead_three _).2, by simp, ?_⟩
    simp [tail_byte]
  · rw [String.utf8EncodeChar_eq_cons_cons_cons_cons size]
    refine ⟨_, _, rfl, (lead_four _).1, (lead_four _).2, by simp, ?_⟩
    simp [tail_byte]

/-- The character of a byte below 128. -/
def ofByte (b : UInt8) : Char := Char.ofNat b.toNat

/-- Small bytes at the beginning are characters at the beginning. -/
theorem eq_append_of_bytes {p r : List UInt8} {s : List Char} (same : bytes s = p ++ r)
    (ascii : ∀ b ∈ p, b < 0x80) : ∃ t, s = p.map ofByte ++ t ∧ bytes t = r := by
  induction p generalizing s with
  | nil => exact ⟨s, rfl, same⟩
  | cons b p ih =>
    cases s with
    | nil => cases same
    | cons c s =>
      have small := ascii b List.mem_cons_self
      obtain ⟨low, encoded⟩ | ⟨high, lead, rest, encoded, large, -⟩ := encode_cases c
      · rw [bytes_cons, encoded, List.cons_append, List.cons_append, List.nil_append] at same
        obtain ⟨rfl, tail⟩ := List.cons.inj same
        obtain ⟨t, rfl, after⟩ := ih tail fun b hb => ascii b (List.mem_cons_of_mem _ hb)
        refine ⟨t, ?_, after⟩
        have byte : c.toUInt8.toNat = c.toNat := by
          show c.val.toNat % 256 = c.val.toNat
          exact Nat.mod_eq_of_lt (Nat.lt_trans low (by decide))
        rw [List.map_cons, ofByte, byte, Char.ofNat_toNat]
        rfl
      · rw [bytes_cons, encoded, List.cons_append, List.cons_append] at same
        rw [(List.cons.inj same).1] at large
        exact absurd small (UInt8.not_lt.mpr (UInt8.le_trans (by decide) large))

theorem bytes_injective : Function.Injective bytes := by
  intro s t same
  have encoded : s.utf8Encode = t.utf8Encode := congrArg List.toByteArray same
  have strings : String.ofList s = String.ofList t := String.toByteArray_inj.mp encoded
  exact String.ofList_injective strings

/-- The last byte is one of the last character. -/
theorem getLast?_bytes (s : List Char) :
    (bytes s).getLast? = s.getLast?.bind fun c => (String.utf8EncodeChar c).getLast? := by
  obtain rfl | ⟨s, c, rfl⟩ := s.eq_nil_or_concat
  · rfl
  · have some' : String.utf8EncodeChar c ≠ [] := by simp
    simp [List.getLast?_append, List.getLast?_eq_some_getLast some']

section Ascii

variable {s : List Char} {p : UInt8 → Bool} {q : Char → Bool}

/-- The bytes of ASCII characters are their codes. -/
theorem bytes_ascii (ascii : ∀ c ∈ s, c.toNat < 128) : bytes s = s.map Char.toUInt8 := by
  induction s with
  | nil => rfl
  | cons c s ih =>
    obtain ⟨-, encoded⟩ | ⟨high, -⟩ := encode_cases c
    · rw [bytes_cons, encoded, ih fun d hd => ascii d (List.mem_cons_of_mem c hd)]
      rfl
    · exact absurd (ascii c List.mem_cons_self) (Nat.not_lt.mpr high)

/-- A test of bytes that says of ASCII what a test of characters says, and no to the rest. -/
structure Tests (p : UInt8 → Bool) (q : Char → Bool) : Prop where
  ascii : ∀ c : Char, c.toNat < 128 → p c.toUInt8 = q c
  byte : ∀ b : UInt8, 0x80 ≤ b → p b = false
  char : ∀ c : Char, 128 ≤ c.toNat → q c = false

theorem Tests.head (tests : Tests p q) (s : List Char) :
    (bytes s).head?.any p = s.head?.any q := by
  cases s with
  | nil => rfl
  | cons c s =>
    obtain ⟨low, encoded⟩ | ⟨high, lead, rest, encoded, large, -⟩ := encode_cases c
    · simp [encoded, tests.ascii c low]
    · have wide := tests.byte lead (UInt8.le_trans (by decide) large)
      simp [encoded, wide, tests.char c high]

theorem Tests.takeWhile (tests : Tests p q) (s : List Char) :
    (bytes s).takeWhile p = bytes (s.takeWhile q) := by
  induction s with
  | nil => rfl
  | cons c s ih =>
    obtain ⟨low, encoded⟩ | ⟨high, lead, rest, encoded, large, -⟩ := encode_cases c
    · cases passes : q c with
      | true => simp [encoded, tests.ascii c low, passes, ih]
      | false => simp [encoded, tests.ascii c low, passes]
    · have wide := tests.byte lead (UInt8.le_trans (by decide) large)
      simp [encoded, wide, tests.char c high]

theorem Tests.dropWhile (tests : Tests p q) (s : List Char) :
    (bytes s).dropWhile p = bytes (s.dropWhile q) := by
  have both : (bytes s).takeWhile p ++ (bytes s).dropWhile p =
      (bytes s).takeWhile p ++ bytes (s.dropWhile q) := by
    rw [List.takeWhile_append_dropWhile, tests.takeWhile, ← bytes_append,
      List.takeWhile_append_dropWhile]
  exact List.append_cancel_left both

end Ascii

end Utf8
