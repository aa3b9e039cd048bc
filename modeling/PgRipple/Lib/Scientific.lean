import Mathlib.Algebra.Order.Field.Rat
import Mathlib.Data.List.Induction
import Mathlib.Tactic.Common
import Mathlib.Tactic.FieldSimp
import Mathlib.Tactic.Linarith
import Mathlib.Tactic.Ring

/-!
# Decimal numerals

A decimal numeral has a sign, digits with an optional point, and an optional exponent. A nonzero
number has one significand without zeros at its ends and one exponent.
-/

namespace Scientific

/-- The number that a string of digits stands for. -/
def natural (ds : List Char) : Nat := Nat.ofDigitChars 10 ds 0

/-- Digits only. -/
def AllDigits (ds : List Char) : Prop := ∀ c ∈ ds, c.isDigit

variable {ds es : List Char} {c : Char}

theorem AllDigits.append (h : AllDigits ds) (h' : AllDigits es) : AllDigits (ds ++ es) :=
  fun c mem => (List.mem_append.mp mem).elim (h c) (h' c)

theorem AllDigits.left (h : AllDigits (ds ++ es)) : AllDigits ds :=
  fun c mem => h c (List.mem_append_left _ mem)

theorem AllDigits.right (h : AllDigits (ds ++ es)) : AllDigits es :=
  fun c mem => h c (List.mem_append_right _ mem)

theorem exists_digitChar (h : c.isDigit) : ∃ k < 10, c = Nat.digitChar k := by
  have range : 48 ≤ c.toNat ∧ c.toNat ≤ 57 := by
    simpa [Char.isDigit, Char.le_def, UInt32.le_iff_toNat_le] using h
  refine ⟨c.toNat - 48, by omega, Char.toNat_inj.mp ?_⟩
  rw [Nat.toNat_digitChar_of_lt_ten (by omega)]
  omega

@[simp] theorem natural_nil : natural [] = 0 := rfl

theorem natural_append (ds es : List Char) :
    natural (ds ++ es) = natural ds * 10 ^ es.length + natural es := by
  rw [natural, Nat.ofDigitChars_append, Nat.ofDigitChars_eq_ofDigitChars_zero, Nat.mul_comm]
  rfl

@[simp] theorem natural_digitChar {k : Nat} (h : k < 10) : natural [k.digitChar] = k := by
  rw [natural, Nat.ofDigitChars_cons_digitChar_of_lt_ten h, Nat.ofDigitChars_nil]
  omega

@[simp] theorem natural_replicate_zero (k : Nat) : natural (List.replicate k '0') = 0 := by
  rw [natural, Nat.ofDigitChars_replicate_zero, Nat.mul_zero]

theorem natural_lt (digits : AllDigits ds) : natural ds < 10 ^ ds.length := by
  induction ds using List.reverseRecOn with
  | nil => exact Nat.one_pos
  | append_singleton ds c ih =>
    obtain ⟨k, small, rfl⟩ := exists_digitChar (digits c (by simp))
    have := ih digits.left
    rw [natural_append, natural_digitChar small, List.length_append, List.length_singleton,
      pow_succ]
    omega

/-- Digits without a zero in front are those of their number. -/
theorem toDigits_natural (digits : AllDigits ds) (nonempty : ds ≠ []) (lead : ds.head? ≠ some '0') :
    Nat.toDigits 10 (natural ds) = ds := by
  induction ds using List.reverseRecOn with
  | nil => exact absurd rfl nonempty
  | append_singleton ds c ih =>
    obtain ⟨k, small, rfl⟩ := exists_digitChar (digits c (by simp))
    rw [natural_append, natural_digitChar small, List.length_singleton, pow_one]
    by_cases single : ds = []
    · subst single
      rw [natural_nil, Nat.zero_mul, Nat.zero_add, Nat.toDigits_of_lt_base small, List.nil_append]
    · have front : Nat.toDigits 10 (natural ds) = ds := by
        refine ih digits.left single ?_
        rwa [List.head?_append_of_ne_nil _ single] at lead
      have positive : 0 < natural ds := by
        refine Nat.pos_of_ne_zero fun zero => lead ?_
        rw [← front, zero]
        rfl
      rw [Nat.mul_comm, ← Nat.toDigits_append_toDigits (by decide) positive small, front,
        Nat.toDigits_of_lt_base small]

/-- A significand: nonempty, without zeros at its ends. -/
structure Clean (ds : List Char) : Prop where
  digits : AllDigits ds
  nonempty : ds ≠ []
  lead : ds.head? ≠ some '0'
  last : ds.getLast? ≠ some '0'

theorem natural_ne_zero (digits : AllDigits ds) (nonempty : ds ≠ [])
    (lead : ds.head? ≠ some '0') : natural ds ≠ 0 := by
  intro zero
  have same := toDigits_natural digits nonempty lead
  rw [zero] at same
  rw [← same] at lead
  exact lead rfl

/-- The last digit is the remainder. -/
theorem Clean.not_dvd (h : Clean ds) : ¬ 10 ∣ natural ds := by
  obtain ⟨front, c, rfl⟩ := List.eq_nil_or_concat ds |>.resolve_left h.nonempty
  rw [List.concat_eq_append] at *
  obtain ⟨k, small, rfl⟩ := exists_digitChar (h.digits c (by simp))
  have last := h.last
  rw [List.getLast?_concat] at last
  rw [natural_append, natural_digitChar small, List.length_singleton, pow_one]
  intro divides
  have zero : k = 0 := by omega
  exact last (by rw [zero]; rfl)

/-- Digits are zeros around a significand, or only zeros. -/
theorem exists_clean (h : AllDigits ds) : ds = List.replicate ds.length '0' ∨
    ∃ i es j, Clean es ∧ ds = List.replicate i '0' ++ (es ++ List.replicate j '0') := by
  induction ds with
  | nil => exact .inl rfl
  | cons c ds ih =>
    have rest := ih fun d mem => h d (List.mem_cons_of_mem c mem)
    by_cases zero : c = '0'
    · subst zero
      obtain only | ⟨i, es, j, clean, split⟩ := rest
      · left
        rw [List.length_cons, List.replicate_succ, ← only]
      · refine .inr ⟨i + 1, es, j, clean, ?_⟩
        rw [List.replicate_succ, List.cons_append, ← split]
    · right
      obtain only | ⟨i, es, j, clean, split⟩ := rest
      · refine ⟨0, [c], ds.length, ⟨fun d mem => ?_, by simp, by simpa using zero, ?_⟩, ?_⟩
        · exact h d (by simp [List.mem_singleton.mp mem])
        · simpa using zero
        · rw [← only]
          rfl
      · refine ⟨0, c :: (List.replicate i '0' ++ es), j, ⟨fun d mem => h d ?_, by simp, ?_, ?_⟩, ?_⟩
        · rw [split, ← List.append_assoc, ← List.cons_append]
          exact List.mem_append_left _ mem
        · simpa using zero
        · rw [← List.cons_append, List.getLast?_append_of_ne_nil _ clean.nonempty]
          exact clean.last
        · rw [split, List.cons_append, List.append_assoc]
          rfl

/-- A number has one significand and one power of ten. -/
theorem Clean.unique (h : Clean ds) (h' : Clean es) {a b : ℤ}
    (same : (natural ds : ℚ) * 10 ^ a = natural es * 10 ^ b) : ds = es ∧ a = b := by
  -- a significand that is ten times another one would end in a zero
  have power {ds es : List Char} {a b : ℤ} (h : Clean ds)
      (same : (natural ds : ℚ) * 10 ^ a = natural es * 10 ^ b) : b ≤ a := by
    by_contra less
    obtain ⟨k, rfl⟩ : ∃ k : ℕ, b = a + (k + 1 : ℕ) := ⟨(b - a - 1).toNat, by omega⟩
    rw [zpow_add₀ (by norm_num), mul_comm ((10 : ℚ) ^ a), ← mul_assoc, zpow_natCast] at same
    have cancelled := mul_right_cancel₀ (zpow_ne_zero a (by norm_num)) same
    have multiple : natural ds = natural es * 10 ^ (k + 1) := by exact_mod_cast cancelled
    refine h.not_dvd ?_
    rw [multiple, pow_succ, ← Nat.mul_assoc]
    exact Nat.dvd_mul_left 10 _
  obtain rfl : a = b := le_antisymm (power h' same.symm) (power h same)
  have cancelled := mul_right_cancel₀ (zpow_ne_zero a (by norm_num)) same
  have equal : natural ds = natural es := by exact_mod_cast cancelled
  refine ⟨?_, rfl⟩
  rw [← toDigits_natural h.digits h.nonempty h.lead, equal,
    toDigits_natural h'.digits h'.nonempty h'.lead]

inductive Sign
  | absent | plus | minus
  deriving DecidableEq, Repr

def Sign.text : Sign → List Char
  | absent => []
  | plus => ['+']
  | minus => ['-']

def Sign.factor : Sign → ℤ
  | absent => 1
  | plus => 1
  | minus => -1

/-- `e` or `E`, and an integer with an optional sign. -/
structure Exponent where
  mark : Char
  sign : Sign
  digits : List Char
  mark_eq : mark = 'e' ∨ mark = 'E'
  allDigits : AllDigits digits
  nonempty : digits ≠ []

def Exponent.text (e : Exponent) : List Char := e.mark :: (e.sign.text ++ e.digits)

def Exponent.power (e : Exponent) : ℤ := e.sign.factor * natural e.digits

structure Numeral where
  sign : Sign
  whole : List Char
  /-- The digits after the point; `none`: there is no point. -/
  fraction : Option (List Char)
  exponent : Option Exponent
  allDigits : AllDigits (whole ++ fraction.getD [])
  nonempty : whole ++ fraction.getD [] ≠ []

namespace Numeral

def digits (n : Numeral) : List Char := n.whole ++ n.fraction.getD []

/-- The digits and the point. -/
def mantissa (n : Numeral) : List Char := n.whole ++ n.fraction.elim [] ('.' :: ·)

def text (n : Numeral) : List Char :=
  n.sign.text ++ (n.mantissa ++ n.exponent.elim [] Exponent.text)

def power (n : Numeral) : ℤ := n.exponent.elim 0 Exponent.power

/-- The number that the numeral stands for. -/
def value (n : Numeral) : ℚ :=
  n.sign.factor * natural n.digits * 10 ^ (n.power - (n.fraction.getD []).length)

/-- Scientific notation: one digit before the point, which is zero for zero only, at least one
after it, no zero at the end but that one, and no sign for zero. -/
structure Normal (n : Numeral) : Prop where
  one : n.whole.length = 1
  lead : n.value ≠ 0 → n.whole ≠ ['0']
  fraction : ∃ f, n.fraction = some f ∧ f ≠ [] ∧ (f.getLast? = some '0' → f = ['0'])
  unsigned : n.value = 0 → n.sign = .absent

/-- The value from the digits without the zeros around them. -/
theorem value_eq {n : Numeral} {ds : List Char} {i j : Nat}
    (split : n.digits = List.replicate i '0' ++ (ds ++ List.replicate j '0')) :
    n.value = n.sign.factor * natural ds * 10 ^ (n.whole.length + n.power - i - ds.length) := by
  have length : (n.whole.length + (n.fraction.getD []).length : ℤ) = i + ds.length + j := by
    have := congrArg List.length split
    simp only [digits, List.length_append, List.length_replicate] at this
    omega
  have number : natural n.digits = natural ds * 10 ^ j := by
    rw [split, natural_append, natural_append, natural_replicate_zero, natural_replicate_zero,
      List.length_replicate]
    ring
  have power : n.power - (n.fraction.getD []).length =
      -j + (n.whole.length + n.power - i - ds.length) := by omega
  rw [value, number, power, zpow_add₀ (by norm_num), zpow_neg, zpow_natCast]
  push_cast
  field_simp

end Numeral

/-- The exponent as it is printed. -/
def Exponent.ofInt (x : ℤ) : Exponent where
  mark := 'E'
  sign := if x < 0 then .minus else .absent
  digits := Nat.toDigits 10 x.natAbs
  mark_eq := .inr rfl
  allDigits := fun _ mem => Nat.isDigit_of_mem_toDigits (by decide) (by decide) mem
  nonempty := Nat.toDigits_ne_nil

@[simp] theorem Exponent.power_ofInt (x : ℤ) : (ofInt x).power = x := by
  rw [power]
  show (if x < 0 then Sign.minus else .absent).factor * (natural (Nat.toDigits 10 x.natAbs) : ℤ) = x
  rw [natural, Nat.ofDigitChars_ten_toDigits]
  split_ifs <;> simp only [Sign.factor] <;> omega

namespace Numeral

def zero : Numeral where
  sign := .absent
  whole := ['0']
  fraction := some ['0']
  exponent := some (.ofInt 0)
  allDigits := by simp [AllDigits]
  nonempty := by simp

/-- The point goes after the first digit of the significand. -/
def normal (negative : Bool) {ds : List Char} (clean : Clean ds) (x : ℤ) : Numeral where
  sign := if negative then .minus else .absent
  whole := ds.take 1
  fraction := some (if ds.length = 1 then ['0'] else ds.drop 1)
  exponent := some (.ofInt x)
  allDigits := by
    refine AllDigits.append (fun c mem => clean.digits c (List.mem_of_mem_take mem)) fun c mem => ?_
    rw [Option.getD_some] at mem
    split_ifs at mem
    · rw [List.mem_singleton.mp mem]
      rfl
    · exact clean.digits c (List.mem_of_mem_drop mem)
  nonempty := by simp [clean.nonempty]

theorem value_zero : zero.value = 0 := by
  have number : natural zero.digits = 0 := by decide
  rw [value, number]
  simp

variable {negative : Bool} {clean : Clean ds} {x : ℤ}

theorem digits_normal : (normal negative clean x).digits =
    List.replicate 0 '0' ++ (ds ++ List.replicate (if ds.length = 1 then 1 else 0) '0') := by
  show ds.take 1 ++ (if ds.length = 1 then ['0'] else ds.drop 1) = _
  rw [List.replicate_zero, List.nil_append]
  split_ifs with single
  · rw [List.take_of_length_le single.le]
    rfl
  · rw [List.take_append_drop, List.replicate_zero, List.append_nil]

theorem length_whole_normal : (normal negative clean x).whole.length = 1 := by
  have := List.length_pos_iff.mpr clean.nonempty
  rw [normal, List.length_take]
  omega

theorem value_normal : (normal negative clean x).value =
    (if negative then -1 else 1) * natural ds * 10 ^ (x + 1 - ds.length) := by
  have factor : (normal negative clean x).sign.factor = if negative then -1 else 1 := by
    cases negative <;> rfl
  have power : (normal negative clean x).power = x := Exponent.power_ofInt x
  rw [value_eq digits_normal, factor, length_whole_normal, power]
  have same : ((1 : ℕ) : ℤ) + x - (0 : ℕ) - ds.length = x + 1 - ds.length := by omega
  rw [same]
  push_cast
  rfl

theorem value_normal_ne_zero : (normal negative clean x).value ≠ 0 := by
  have number : (natural ds : ℚ) ≠ 0 := by
    exact_mod_cast natural_ne_zero clean.digits clean.nonempty clean.lead
  rw [value_normal]
  refine mul_ne_zero (mul_ne_zero ?_ number) (zpow_ne_zero _ (by norm_num))
  split_ifs <;> norm_num

theorem normal_zero : zero.Normal where
  one := rfl
  lead := fun nonzero => absurd value_zero nonzero
  fraction := ⟨['0'], rfl, by simp, fun _ => rfl⟩
  unsigned := fun _ => rfl

theorem normal_normal : (normal negative clean x).Normal where
  one := length_whole_normal
  lead := by
    intro _ zero
    refine clean.lead ?_
    have first : (ds.take 1).head? = some '0' := congrArg List.head? zero
    rwa [List.head?_take, if_neg Nat.one_ne_zero] at first
  fraction := by
    refine ⟨_, rfl, ?_, fun last => ?_⟩
    · have := List.length_pos_iff.mpr clean.nonempty
      split_ifs with single
      · simp
      · refine List.ne_nil_of_length_pos ?_
        rw [List.length_drop]
        omega
    · split_ifs at last ⊢ with single
      · rfl
      · refine absurd ?_ clean.last
        rw [List.getLast?_drop] at last
        split_ifs at last
        exact last
  unsigned := fun zero => absurd zero value_normal_ne_zero

/-- A number has one normal numeral. -/
theorem normal_unique {negative' : Bool} {clean' : Clean es} {x' : ℤ}
    (same : (normal negative clean x).value = (normal negative' clean' x').value) :
    normal negative clean x = normal negative' clean' x' := by
  rw [value_normal, value_normal] at same
  have positive {ds : List Char} (clean : Clean ds) (x : ℤ) : (0 : ℚ) < natural ds * 10 ^ x := by
    have number := natural_ne_zero clean.digits clean.nonempty clean.lead
    exact mul_pos (by exact_mod_cast Nat.pos_of_ne_zero number) (zpow_pos (by norm_num) x)
  have left := positive clean (x + 1 - ds.length)
  have right := positive clean' (x' + 1 - es.length)
  obtain ⟨sign, size⟩ : negative = negative' ∧ (natural ds : ℚ) * 10 ^ (x + 1 - ds.length) =
      natural es * 10 ^ (x' + 1 - es.length) := by
    rw [mul_assoc, mul_assoc] at same
    cases negative <;> cases negative' <;>
      simp only [if_true, Bool.false_eq_true, if_false] at same <;>
      first | exact ⟨rfl, by linarith only [same]⟩ | linarith only [same, left, right]
  obtain ⟨digits, power⟩ := clean.unique clean' size
  subst sign digits
  obtain rfl : x = x' := by omega
  rfl

end Numeral

end Scientific
