import PgRipple.Datalog.Neck
import PgRipple.Lib.Scientific
import PgRipple.Shacl.Values

/-!
# The canonical form of doubles

`xsd_double_fmt_impl` prints a decimal numeral in scientific notation: one digit before
the point, at least one after it, and an exponent. It works on the text alone: it counts
digits and zeros, and adds the counts to the exponent that it reads.

The result stands for the same number, and there is one result for each number.
-/

namespace PgRipple.Sparql

open Dictionary (Text trim parseInteger isWhitespace)
open Datalog.Neck (byteLength splitAtByte)
open Scientific

/-- `as i32`, and what `+` and `-` of `i32` give in a release build. -/
def wrapI32 (n : Int) : Int := n.bmod (2 ^ 32)

/-- `str::parse::<i32>`. -/
def parseI32 (s : Text) : Option Int :=
  (parseInteger s).filter fun v => -2 ^ 31 ≤ v ∧ v < 2 ^ 31

/-- What lies before and after the first of certain characters. -/
def cutAt (mark : Char → Bool) (s : Text) : Option (Text × Text) :=
  match s.dropWhile fun c => !mark c with
  | [] => none
  | _ :: rest => some (s.takeWhile fun c => !mark c, rest)

/-- The sign, and what is left without it. -/
def stripSign : Text → Bool × Text
  | '-' :: rest => (true, rest.dropWhile fun c => c = '+')
  | s => (false, s.dropWhile fun c => c = '+')

/-- The mantissa and the exponent. -/
def splitExponent (s : Text) : Text × Int :=
  match cutAt (fun c => c = 'E' ∨ c = 'e') s with
  | some (mantissaStr, expPart) => (mantissaStr, (parseI32 expPart).getD 0)
  | none => (s, 0)

/-- The digits before and after the point. -/
def splitPoint (mantissaStr : Text) : Text × Text :=
  (cutAt (fun c => c = '.') mantissaStr).getD (mantissaStr, [])

/-- A numeral in its parts. -/
structure NumeralParts where
  neg : Bool
  intPart : Text
  fracPart : Text
  expOffset : Int
  deriving DecidableEq, Repr

/-- The first half of `xsd_double_fmt_impl`. -/
def numeralParts (s : Text) : NumeralParts :=
  let (neg, s) := stripSign (trim s)
  let (mantissaStr, expOffset) := splitExponent s
  let (intPart, fracPart) := splitPoint mantissaStr
  ⟨neg, intPart, fracPart, expOffset⟩

/-- The second half. `none` is a panic, from a slice inside a character. -/
def formatParts (parts : NumeralParts) : Option Text :=
  let combined := parts.intPart ++ parts.fracPart
  let decimalPos := wrapI32 (wrapI32 (byteLength parts.intPart) + parts.expOffset)
  match combined.findIdx? fun c => c ≠ '0' with
  | none => some "0.0E0".toList
  | some firstNz =>
    let exp := wrapI32 (wrapI32 (decimalPos - wrapI32 firstNz) - 1)
    let significant := combined.drop firstNz
    let trimmed := significant.rdropWhile fun c => c = '0'
    let trimmed := if trimmed = [] then ['0'] else trimmed
    let mantissa :=
      if byteLength trimmed = 1 then some (trimmed ++ ".0".toList)
      else (splitAtByte 1 trimmed).map fun (first, rest) => first ++ '.' :: rest
    let sign := if parts.neg then ['-'] else []
    mantissa.map fun mantissa => sign ++ mantissa ++ 'E' :: (toString exp).toList

/-- `xsd_double_fmt_impl`. -/
def xsdDoubleFmtImpl (s : Text) : Option Text := formatParts (numeralParts s)

section Parts

variable {s a b : Text} {c : Char} {mark : Char → Bool} {n : Numeral}

theorem cutAt_eq_none (free : ∀ c ∈ s, mark c = false) : cutAt mark s = none := by
  have empty : s.dropWhile (fun c => !mark c) = [] :=
    List.dropWhile_eq_nil_iff.mpr fun c mem => by simp [free c mem]
  rw [cutAt, empty]

theorem cutAt_append (free : ∀ c ∈ a, mark c = false) (here : mark c = true) :
    cutAt mark (a ++ c :: b) = some (a, b) := by
  have others : ∀ d ∈ a, (!mark d) = true := fun d mem => by simp [free d mem]
  have stop : ¬ (!mark c) = true := by simp [here]
  rw [cutAt, List.dropWhile_append_of_pos others, List.takeWhile_append_of_pos others,
    List.dropWhile_cons_of_neg (p := fun c => !mark c) stop,
    List.takeWhile_cons_of_neg (p := fun c => !mark c) stop, List.append_nil]

theorem ne_of_isDigit (digit : c.isDigit) {d : Char} (other : d.isDigit = false) : c ≠ d := by
  rintro rfl
  rw [digit] at other
  exact absurd other (by simp)

theorem mem_mantissa (mem : c ∈ n.mantissa) : c.isDigit ∨ c = '.' := by
  obtain mem | mem := List.mem_append.mp mem
  · exact .inl (n.allDigits.left c mem)
  · have digits := n.allDigits.right
    cases fraction : n.fraction with
    | none =>
      rw [fraction] at mem
      exact absurd mem List.not_mem_nil
    | some f =>
      rw [fraction] at mem digits
      exact (List.mem_cons.mp mem).symm.imp_left (digits c)

theorem mantissa_ne_nil (n : Numeral) : n.mantissa ≠ [] := by
  intro empty
  obtain ⟨whole, fraction⟩ := List.append_eq_nil_iff.mp empty
  have nonempty := n.nonempty
  cases found : n.fraction with
  | none => simp [whole, found] at nonempty
  | some f => simp [found] at fraction

theorem mem_sign_text {sign : Sign} (mem : c ∈ sign.text) : c = '+' ∨ c = '-' := by
  cases sign <;> simp_all [Sign.text]

theorem mem_text (mem : c ∈ n.text) :
    c.isDigit ∨ c = '.' ∨ c = '+' ∨ c = '-' ∨ c = 'e' ∨ c = 'E' := by
  obtain mem | mem := List.mem_append.mp mem
  · obtain rfl | rfl := mem_sign_text mem <;> simp
  · obtain mem | mem := List.mem_append.mp mem
    · obtain digit | rfl := mem_mantissa mem
      · exact .inl digit
      · simp
    · cases found : n.exponent with
      | none =>
        rw [found] at mem
        exact absurd mem List.not_mem_nil
      | some e =>
        rw [found] at mem
        obtain rfl | mem := List.mem_cons.mp mem
        · obtain same | same := e.mark_eq <;> simp [same]
        · obtain mem | mem := List.mem_append.mp mem
          · obtain rfl | rfl := mem_sign_text mem <;> simp
          · exact .inl (e.allDigits c mem)

theorem trim_of_visible (visible : ∀ c ∈ s, isWhitespace c = false) : trim s = s := by
  cases s with
  | nil => rfl
  | cons c s =>
    have last : (c :: s).getLast? = some ((c :: s).getLast (by simp)) :=
      List.getLast?_eq_getLast_of_ne_nil (by simp)
    exact Dictionary.trim_eq_self rfl last (visible c List.mem_cons_self)
      (visible _ (List.getLast_mem _))

theorem trim_text (n : Numeral) : trim n.text = n.text := by
  refine trim_of_visible fun c mem => ?_
  obtain digit | rfl | rfl | rfl | rfl | rfl := mem_text mem
  · exact Dictionary.isWhitespace_alphanum (.inl (by simp [Char.isAlphanum, digit]))
  all_goals rfl

/-- What follows the sign does not begin like a sign. -/
theorem head_body (n : Numeral) (rest : Text) :
    ∃ c s, n.mantissa ++ rest = c :: s ∧ c ≠ '+' ∧ c ≠ '-' := by
  obtain ⟨c, s, split⟩ := List.exists_cons_of_ne_nil (mantissa_ne_nil n)
  refine ⟨c, s ++ rest, by rw [split, List.cons_append], ?_⟩
  have mem : c ∈ n.mantissa := by simp [split]
  obtain digit | rfl := mem_mantissa mem
  · exact ⟨ne_of_isDigit digit rfl, ne_of_isDigit digit rfl⟩
  · simp

theorem parseDigits_natural {ds : Text} (digits : AllDigits ds) (nonempty : ds ≠ []) :
    Dictionary.parseDigits ds = some (natural ds) :=
  if_pos ⟨nonempty, List.all_eq_true.mpr digits⟩

theorem parseInteger_exponent (e : Exponent) :
    parseInteger (e.sign.text ++ e.digits) = some e.power := by
  have read := parseDigits_natural e.allDigits e.nonempty
  have power : e.power = e.sign.factor * natural e.digits := rfl
  cases sign : e.sign with
  | absent =>
    rw [Sign.text, List.nil_append, Dictionary.parseInteger_digits e.allDigits, read, power, sign]
    simp [Sign.factor]
  | plus =>
    show (Dictionary.parseDigits e.digits).map _ = _
    rw [read, power, sign]
    simp [Sign.factor]
  | minus =>
    show (Dictionary.parseDigits e.digits).map _ = _
    rw [read, power, sign]
    simp [Sign.factor]

theorem stripSign_text (n : Numeral) : stripSign n.text =
    (decide (n.sign = .minus), n.mantissa ++ n.exponent.elim [] Exponent.text) := by
  obtain ⟨c, s, body, notPlus, notMinus⟩ := head_body n (n.exponent.elim [] Exponent.text)
  have kept : (c :: s).dropWhile (fun c => c = '+') = c :: s :=
    List.dropWhile_cons_of_neg (by simpa using notPlus)
  rw [Numeral.text, body]
  cases n.sign with
  | absent =>
    rw [Sign.text, List.nil_append, stripSign]
    · rw [kept]
      rfl
    · rintro rest same
      exact notMinus (List.cons.inj same).1
  | plus => exact congrArg (Prod.mk false) kept
  | minus => exact congrArg (Prod.mk true) kept

theorem splitExponent_text (fits : -2 ^ 31 ≤ n.power ∧ n.power < 2 ^ 31) :
    splitExponent (n.mantissa ++ n.exponent.elim [] Exponent.text) = (n.mantissa, n.power) := by
  have free : ∀ c ∈ n.mantissa, decide (c = 'E' ∨ c = 'e') = false := by
    intro c mem
    obtain digit | rfl := mem_mantissa mem
    · simp [ne_of_isDigit digit (d := 'E') rfl, ne_of_isDigit digit (d := 'e') rfl]
    · rfl
  rw [splitExponent]
  cases found : n.exponent with
  | none =>
    rw [Option.elim_none, List.append_nil, cutAt_eq_none free, Numeral.power, found]
    rfl
  | some e =>
    have here : decide (e.mark = 'E' ∨ e.mark = 'e') = true := decide_eq_true e.mark_eq.symm
    have power : n.power = e.power := by rw [Numeral.power, found, Option.elim_some]
    have read : parseI32 (e.sign.text ++ e.digits) = some n.power := by
      rw [parseI32, parseInteger_exponent, ← power, Option.filter_some,
        if_pos (decide_eq_true fits)]
    rw [Option.elim_some, Exponent.text, cutAt_append free here]
    dsimp only
    rw [read]
    rfl

theorem splitPoint_mantissa (n : Numeral) :
    splitPoint n.mantissa = (n.whole, n.fraction.getD []) := by
  have free : ∀ c ∈ n.whole, decide (c = '.') = false := fun c mem =>
    decide_eq_false (ne_of_isDigit (n.allDigits.left c mem) rfl)
  rw [splitPoint, Numeral.mantissa]
  cases n.fraction with
  | none =>
    rw [Option.elim_none, List.append_nil, cutAt_eq_none free]
    rfl
  | some f =>
    rw [Option.elim_some, cutAt_append free rfl]
    rfl

/-- A numeral is taken apart as it was put together. -/
theorem numeralParts_text (fits : -2 ^ 31 ≤ n.power ∧ n.power < 2 ^ 31) : numeralParts n.text =
    ⟨n.sign = .minus, n.whole, n.fraction.getD [], n.power⟩ := by
  rw [numeralParts, trim_text, stripSign_text]
  dsimp only
  rw [splitExponent_text fits]
  dsimp only
  rw [splitPoint_mantissa]

end Parts

theorem span_digits {ds rest : Text} (digits : AllDigits ds)
    (stop : ∀ c ∈ rest.head?, c.isDigit = false) :
    (ds ++ rest).takeWhile Char.isDigit = ds ∧ (ds ++ rest).dropWhile Char.isDigit = rest := by
  rw [List.takeWhile_append_of_pos digits, List.dropWhile_append_of_pos digits]
  cases rest with
  | nil => exact ⟨List.append_nil ds, rfl⟩
  | cons c rest =>
    have other : ¬ c.isDigit = true := by simp [stop c rfl]
    rw [List.takeWhile_cons_of_neg other, List.dropWhile_cons_of_neg other, List.append_nil]
    exact ⟨rfl, rfl⟩

theorem mantissa_append {rest : Text} (n : Numeral)
    (stop : ∀ c ∈ rest.head?, c.isDigit = false ∧ c ≠ '.') :
    Shacl.mantissa (n.mantissa ++ rest) =
      some ((natural n.digits : ℚ) / 10 ^ (n.fraction.getD []).length, rest) := by
  have nonempty := n.nonempty
  have digits := n.allDigits
  rw [Numeral.mantissa, Numeral.digits, natural]
  cases fraction : n.fraction with
  | none =>
    rw [fraction, Option.getD_none, List.append_nil] at nonempty digits
    obtain ⟨taken, left⟩ := span_digits digits fun c head => (stop c head).1
    rw [Option.elim_none, List.append_nil, Shacl.mantissa, taken, left]
    cases rest with
    | nil => simp [nonempty]
    | cons c rest =>
      have other := (stop c rfl).2
      split
      rename_i parts
      split at parts
      · exact absurd (List.cons.inj ‹_›).1 other
      · cases parts
        simp [nonempty]
  | some f =>
    rw [fraction, Option.getD_some] at nonempty digits
    have point : ∀ c ∈ ('.' :: (f ++ rest)).head?, c.isDigit = false := by simp
    obtain ⟨taken, left⟩ := span_digits digits.left point
    obtain ⟨taken', left'⟩ := span_digits digits.right fun c head => (stop c head).1
    have split : n.whole ++ '.' :: f ++ rest = n.whole ++ '.' :: (f ++ rest) := by simp
    rw [Option.elim_some, split, Shacl.mantissa, taken, left]
    simp only [taken', left', Option.getD_some]
    rw [if_neg (by simpa using nonempty)]

theorem signed_text (read : Text → Option ℚ) (n : Numeral) : Shacl.signed read n.text =
    (read (n.mantissa ++ n.exponent.elim [] Exponent.text)).map
      fun q : ℚ => (n.sign.factor : ℚ) * q := by
  obtain ⟨c, s, body, notPlus, notMinus⟩ := head_body n (n.exponent.elim [] Exponent.text)
  rw [Numeral.text, body]
  cases n.sign with
  | absent =>
    rw [Sign.text, List.nil_append, Shacl.signed]
    · simp [Sign.factor]
    · rintro rest same
      exact notMinus (List.cons.inj same).1
    · rintro rest same
      exact notPlus (List.cons.inj same).1
  | plus => simp [Sign.text, Sign.factor, Shacl.signed]
  | minus => simp [Sign.text, Sign.factor, Shacl.signed]

theorem readFinite_text (n : Numeral) : Shacl.readFinite n.text = some n.value := by
  have stop : ∀ c ∈ (n.exponent.elim [] Exponent.text).head?, c.isDigit = false ∧ c ≠ '.' := by
    cases n.exponent with
    | none => simp
    | some e =>
      intro c head
      obtain rfl : e.mark = c := Option.some.inj head
      obtain same | same := e.mark_eq <;> simp [same]
  have scale : (10 : ℚ) ^ (n.power - (n.fraction.getD []).length) =
      10 ^ n.power / 10 ^ (n.fraction.getD []).length := by
    rw [zpow_sub₀ (by norm_num), zpow_natCast]
  rw [Shacl.readFinite, signed_text, mantissa_append n stop, Option.bind_some, Numeral.value,
    scale, Numeral.power]
  cases n.exponent with
  | none =>
    simp only [Option.elim_none, Option.map_some, zpow_zero]
    ring_nf
  | some e =>
    simp only [Option.elim_some, Exponent.text, if_pos e.mark_eq, parseInteger_exponent,
      Option.map_some]
    ring_nf

section Result

variable {n : Numeral} {ds : Text} {i j : Nat}

theorem wrapI32_eq {v : Int} (low : -2 ^ 31 ≤ v) (high : v < 2 ^ 31) : wrapI32 v = v := by
  rw [wrapI32, Int.bmod_eq_of_le] <;> omega

theorem byteLength_digits (digits : AllDigits ds) : byteLength ds = ds.length := by
  refine Datalog.Neck.byteLength_eq_length_iff.mpr fun c mem => ?_
  obtain ⟨k, small, rfl⟩ := exists_digitChar (digits c mem)
  have ascii : ∀ k < 10, (Nat.digitChar k).utf8Size = 1 := by decide
  exact ascii k small

/-- Nothing overflows: `i` is the number of zeros in front. -/
structure NoOverflow (n : Numeral) (i : Nat) : Prop where
  power : -2 ^ 31 ≤ n.power ∧ n.power < 2 ^ 31
  whole : n.whole.length < 2 ^ 31
  zeros : i < 2 ^ 31
  high : n.whole.length + n.power < 2 ^ 31
  low : -2 ^ 31 ≤ n.whole.length + n.power - i - 1

theorem xsdDoubleFmtImpl_zeros (power : -2 ^ 31 ≤ n.power ∧ n.power < 2 ^ 31)
    (zeros : n.digits = List.replicate i '0') :
    xsdDoubleFmtImpl n.text = some Numeral.zero.text := by
  have absent : (n.whole ++ n.fraction.getD []).findIdx? (fun c => c ≠ '0') = none := by
    rw [show n.whole ++ n.fraction.getD [] = _ from zeros, List.findIdx?_eq_none_iff]
    intro c mem
    simp [List.eq_of_mem_replicate mem]
  rw [xsdDoubleFmtImpl, numeralParts_text power, formatParts]
  dsimp only
  rw [absent]
  rfl

theorem text_normal {negative : Bool} {clean : Clean ds} {x : Int} :
    (Numeral.normal negative clean x).text =
      (if negative then ['-'] else []) ++
        (ds.take 1 ++ '.' :: if ds.length = 1 then ['0'] else ds.drop 1) ++
          'E' :: (toString x).toList := by
  have sign : (Numeral.normal negative clean x).sign.text = if negative then ['-'] else [] := by
    cases negative <;> rfl
  have exponent : (Exponent.ofInt x).text = 'E' :: (toString x).toList := by
    rw [Dictionary.toString_int, Exponent.text]
    show 'E' :: ((if x < 0 then Sign.minus else .absent).text ++ Nat.toDigits 10 x.natAbs) = _
    split_ifs <;> rfl
  rw [Numeral.text, sign, List.append_assoc]
  show _ ++ (_ ++ (Exponent.ofInt x).text) = _
  rw [exponent]
  rfl

/-- The zeros in front are counted. -/
theorem findIdx?_clean (clean : Clean ds) :
    (List.replicate i '0' ++ (ds ++ List.replicate j '0')).findIdx? (fun c => c ≠ '0') =
      some i := by
  obtain ⟨d, rest, rfl⟩ := List.exists_cons_of_ne_nil clean.nonempty
  have lead : d ≠ '0' := fun zero => clean.lead (congrArg some zero)
  rw [List.findIdx?_append, List.cons_append, List.findIdx?_cons,
    if_pos (decide_eq_true lead)]
  simp

theorem rdropWhile_clean (clean : Clean ds) :
    (ds ++ List.replicate j '0').rdropWhile (fun c => c = '0') = ds := by
  induction j with
  | zero =>
    rw [List.replicate_zero, List.append_nil]
    refine List.rdropWhile_eq_self_iff.mpr fun nonempty zero => clean.last ?_
    rw [List.getLast?_eq_getLast_of_ne_nil nonempty, of_decide_eq_true zero]
  | succ j ih =>
    rwa [List.replicate_succ', ← List.append_assoc, List.rdropWhile_concat_pos _ _ _ (by decide)]

theorem point_clean (clean : Clean ds) :
    (if byteLength ds = 1 then some (ds ++ ".0".toList)
      else (splitAtByte 1 ds).map fun (first, rest) => first ++ '.' :: rest) =
        some (ds.take 1 ++ '.' :: if ds.length = 1 then ['0'] else ds.drop 1) := by
  obtain ⟨d, rest, rfl⟩ := List.exists_cons_of_ne_nil clean.nonempty
  have small : d.utf8Size = 1 := by
    have digit : AllDigits [d] := fun c mem => clean.digits c (by simp_all)
    simpa [byteLength] using byteLength_digits digit
  rw [byteLength_digits clean.digits]
  split_ifs with single
  · rw [List.take_of_length_le single.le]
    rfl
  · rw [splitAtByte, if_pos small.le, small]
    cases rest <;> rfl

theorem xsdDoubleFmtImpl_clean (clean : Clean ds)
    (split : n.digits = List.replicate i '0' ++ (ds ++ List.replicate j '0'))
    (fits : NoOverflow n i) : xsdDoubleFmtImpl n.text =
      some (Numeral.normal (n.sign = .minus) clean (n.whole.length + n.power - i - 1)).text := by
  obtain ⟨power, whole, zeros, high, low⟩ := fits
  have exp : wrapI32 (wrapI32 (wrapI32 (wrapI32 (byteLength n.whole) + n.power) - wrapI32 i) - 1) =
      n.whole.length + n.power - i - 1 := by
    rw [byteLength_digits n.allDigits.left, wrapI32_eq (v := n.whole.length) (by omega) (by omega),
      wrapI32_eq (v := i) (by omega) (by omega), wrapI32_eq (v := _ + _) (by omega) (by omega),
      wrapI32_eq (v := _ - (i : Int)) (by omega) (by omega), wrapI32_eq (by omega) (by omega)]
  have combined : n.whole ++ n.fraction.getD [] = _ := split
  rw [xsdDoubleFmtImpl, numeralParts_text power, formatParts]
  dsimp only
  rw [combined, findIdx?_clean clean]
  dsimp only
  rw [List.drop_left' List.length_replicate, rdropWhile_clean clean, if_neg clean.nonempty,
    point_clean clean, exp, Option.map_some, text_normal]

/-- Fewer than 10⁹ characters, and nine digits in the exponent. -/
structure Short (n : Numeral) : Prop where
  length : n.text.length < 10 ^ 9
  exponent : ∀ e ∈ n.exponent, e.digits.length ≤ 9

theorem Short.power (short : Short n) : -10 ^ 9 < n.power ∧ n.power < 10 ^ 9 := by
  rw [Numeral.power]
  cases found : n.exponent with
  | none => simp
  | some e =>
    have small : natural e.digits < 10 ^ 9 :=
      (natural_lt e.allDigits).trans_le (Nat.pow_le_pow_right (by decide) (short.exponent e found))
    rw [Option.elim_some, Exponent.power]
    cases e.sign <;> simp only [Sign.factor] <;> omega

theorem length_digits_le (n : Numeral) : n.digits.length ≤ n.text.length := by
  have mantissa : n.digits.length ≤ n.mantissa.length := by
    rw [Numeral.digits, Numeral.mantissa]
    cases n.fraction <;> simp
  rw [Numeral.text, List.length_append, List.length_append]
  omega

theorem Short.noOverflow (short : Short n) (zeros : i ≤ n.digits.length) : NoOverflow n i := by
  have length := short.length
  have power := short.power
  have digits := length_digits_le n
  have whole : n.whole.length ≤ n.digits.length := by simp [Numeral.digits]
  exact ⟨by omega, by omega, by omega, by omega, by omega⟩

/-- What comes out. -/
inductive IsResult : Numeral → Prop
  | zero : IsResult .zero
  | normal (negative : Bool) {ds : Text} (clean : Clean ds) {x : Int} (low : -2 ^ 31 ≤ x)
      (high : x + 1 < 2 ^ 31) : IsResult (.normal negative clean x)

theorem exists_result (short : Short n) :
    ∃ m, IsResult m ∧ xsdDoubleFmtImpl n.text = some m.text ∧ m.value = n.value := by
  obtain zeros | ⟨i, ds, j, clean, split⟩ := exists_clean n.allDigits
  · have fits := short.noOverflow (Nat.zero_le _)
    refine ⟨.zero, .zero, xsdDoubleFmtImpl_zeros fits.power zeros, ?_⟩
    have number : natural n.digits = 0 := by
      rw [show n.digits = _ from zeros, natural_replicate_zero]
    rw [Numeral.value_zero, Numeral.value, number]
    simp
  · have fits : NoOverflow n i := short.noOverflow (by
      rw [show n.digits = _ from split, List.length_append, List.length_replicate]
      omega)
    have high := fits.high
    refine ⟨_, .normal _ clean fits.low (by omega), xsdDoubleFmtImpl_clean clean split fits, ?_⟩
    have sign : (n.sign.factor : ℚ) = if n.sign = .minus then -1 else 1 := by
      cases n.sign <;> simp [Sign.factor]
    rw [Numeral.value_normal, Numeral.value_eq split, sign]
    have power : (n.whole.length : Int) + n.power - i - 1 + 1 - ds.length =
        n.whole.length + n.power - i - ds.length := by omega
    rw [power]
    simp

variable {m m' : Numeral}

theorem IsResult.fixed (result : IsResult m) : xsdDoubleFmtImpl m.text = some m.text := by
  cases result with
  | zero => exact xsdDoubleFmtImpl_zeros (n := .zero) (i := 2) (by decide) rfl
  | normal negative clean low high =>
    rename_i ds x
    have power : (Numeral.normal negative clean x).power = x := Exponent.power_ofInt x
    have whole : (Numeral.normal negative clean x).whole.length = 1 := Numeral.length_whole_normal
    have fits : NoOverflow (.normal negative clean x) 0 :=
      ⟨by omega, by omega, by decide, by omega, by omega⟩
    rw [xsdDoubleFmtImpl_clean clean Numeral.digits_normal fits, power, whole]
    have sign : decide ((Numeral.normal negative clean x).sign = .minus) = negative := by
      cases negative <;> rfl
    have exponent : ((1 : Nat) : Int) + x - (0 : Nat) - 1 = x := by omega
    rw [sign, exponent]

theorem IsResult.unique (result : IsResult m) (result' : IsResult m')
    (same : m.value = m'.value) : m = m' := by
  cases result with
  | zero =>
    cases result' with
    | zero => rfl
    | normal =>
      rw [Numeral.value_zero] at same
      exact absurd same.symm Numeral.value_normal_ne_zero
  | normal =>
    cases result' with
    | zero =>
      rw [Numeral.value_zero] at same
      exact absurd same Numeral.value_normal_ne_zero
    | normal => exact Numeral.normal_unique same

theorem IsResult.isNormal (result : IsResult m) : m.Normal := by
  cases result with
  | zero => exact Numeral.normal_zero
  | normal => exact Numeral.normal_normal

/-- A short numeral becomes a normal one of the same value, which is left alone, and which all
short numerals of this value become. -/
theorem xsdDoubleFmtImpl_normal (n : Numeral) (short : Short n) :
    ∃ m : Numeral, xsdDoubleFmtImpl n.text = some m.text ∧
      m.value = n.value ∧ Shacl.readFinite m.text = some n.value ∧ m.Normal ∧
      xsdDoubleFmtImpl m.text = some m.text ∧
      ∀ n' : Numeral, Short n' → n'.value = n.value → xsdDoubleFmtImpl n'.text = some m.text := by
  obtain ⟨m, result, printed, value⟩ := exists_result short
  refine ⟨m, printed, value, ?_, result.isNormal, result.fixed, fun n' short' equal => ?_⟩
  · rw [readFinite_text, value]
  · obtain ⟨m', result', printed', value'⟩ := exists_result short'
    rw [printed', result.unique result' (by rw [value, value', equal])]

/-- Zeros, a point and an exponent: `-0032.100e+2`. -/
def padded : Numeral where
  sign := .minus
  whole := "0032".toList
  fraction := some "100".toList
  exponent := some ⟨'e', .plus, ['2'], .inl rfl, by simp [AllDigits], by simp⟩
  allDigits := by simp [AllDigits]
  nonempty := by simp

theorem xsdDoubleFmtImpl_padded : Short padded ∧
    ∃ m : Numeral, xsdDoubleFmtImpl padded.text = some m.text ∧
      m.value = padded.value ∧ Shacl.readFinite m.text = some padded.value ∧ m.Normal ∧
      xsdDoubleFmtImpl m.text = some m.text ∧
      ∀ n' : Numeral, Short n' → n'.value = padded.value →
        xsdDoubleFmtImpl n'.text = some m.text := by
  have short : Short padded := ⟨by decide, by decide⟩
  exact ⟨short, xsdDoubleFmtImpl_normal padded short⟩

end Result

end PgRipple.Sparql
