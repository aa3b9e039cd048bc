import PgRipple.Dictionary.Inline
import Mathlib.Algebra.Order.Field.Rat
import Mathlib.Order.Compare
import Mathlib.Order.WithBot

/-!
# The values of literals

What a typed literal of a numeric datatype, of `xsd:date` or of `xsd:dateTime` stands for, and
the order of these values, as XML Schema defines them. A number can be infinite, and a time with
a zone is compared with one without only if they are more than 14 hours apart.
-/

namespace PgRipple.Shacl

open Dictionary (Text xsd parseDigits parseInteger)

/-- A number, or an infinity. -/
abbrev Number := WithBot (WithTop ℚ)

def Number.finite (q : ℚ) : Number := WithBot.some (WithTop.some q)

/-- Read what follows an optional sign. -/
def signed (read : Text → Option ℚ) : Text → Option ℚ
  | '-' :: s => (read s).map fun q => -q
  | '+' :: s => read s
  | s => read s

/-- Digits with an optional point, and what follows. -/
def mantissa (s : Text) : Option (ℚ × Text) :=
  let whole := s.takeWhile Char.isDigit
  let (fraction, rest) :=
    match s.dropWhile Char.isDigit with
    | '.' :: rest => (rest.takeWhile Char.isDigit, rest.dropWhile Char.isDigit)
    | rest => ([], rest)
  if whole = [] ∧ fraction = [] then none
  else some ((Nat.ofDigitChars 10 (whole ++ fraction) 0 : ℚ) / 10 ^ fraction.length, rest)

/-- The text of an `xsd:decimal`. -/
def readDecimal : Text → Option ℚ :=
  signed fun s => (mantissa s).bind fun r => if r.2 = [] then some r.1 else none

/-- The text of a finite `xsd:double`. -/
def readFinite : Text → Option ℚ :=
  signed fun s => (mantissa s).bind fun r =>
    match r.2 with
    | [] => some r.1
    | e :: exponent =>
      if e = 'e' ∨ e = 'E' then (parseInteger exponent).map fun k => r.1 * 10 ^ k else none

/-- The text of an `xsd:double`. -/
def readDouble (s : Text) : Option Number :=
  if s = "INF".toList ∨ s = "+INF".toList then some ⊤
  else if s = "-INF".toList then some ⊥
  else (readFinite s).map Number.finite

/-- The names of `xsd:integer` and the datatypes that are derived from it. -/
def integerNames : List String :=
  ["integer", "nonPositiveInteger", "negativeInteger", "long", "int", "short", "byte",
    "nonNegativeInteger", "unsignedLong", "unsignedInt", "unsignedShort", "unsignedByte",
    "positiveInteger"]

def integerDatatypes : List Text := integerNames.map xsd

theorem xsd_inj {a b : String} : xsd a = xsd b ↔ a = b := by
  unfold xsd
  exact (List.append_right_inj _).trans String.toList_inj

theorem mem_integerDatatypes {name : String} :
    xsd name ∈ integerDatatypes ↔ name ∈ integerNames :=
  List.mem_map_of_injective fun _ _ same => xsd_inj.mp same

def readNumber (lexical datatype : Text) : Option Number :=
  if datatype ∈ integerDatatypes then
    (parseInteger lexical).map fun (v : Int) => Number.finite v
  else if datatype = xsd "decimal" then
    (readDecimal lexical).map Number.finite
  else if datatype = xsd "double" ∨ datatype = xsd "float" then readDouble lexical
  else none

theorem readNumber_xsd_eq_none {name : String} {lexical : Text} (integer : name ∉ integerNames)
    (other : name ∉ ["decimal", "double", "float"]) : readNumber lexical (xsd name) = none := by
  simp only [List.mem_cons, List.not_mem_nil, or_false, not_or] at other
  have float : ¬ (xsd name = xsd "double" ∨ xsd name = xsd "float") := by
    rw [xsd_inj, xsd_inj, not_or]
    exact other.2
  rw [readNumber, if_neg (mem_integerDatatypes.not.mpr integer), if_neg (xsd_inj.not.mpr other.1),
    if_neg float]

/-- The seconds since the epoch; without a zone they are those of UTC. -/
structure Moment where
  seconds : ℚ
  zoned : Bool
  deriving DecidableEq

/-- The order of times, where it is determined. -/
def Moment.order (a b : Moment) : Option Ordering :=
  if a.zoned = b.zoned then some (cmp a.seconds b.seconds)
  else if a.seconds + 50400 < b.seconds then some .lt
  else if b.seconds + 50400 < a.seconds then some .gt
  else none

def expect (c : Char) : Text → Option Text
  | d :: s => if d = c then some s else none
  | [] => none

def twoDigits : Text → Option (Nat × Text)
  | a :: b :: s => (parseDigits [a, b]).map fun n => (n, s)
  | _ => none

/-- A year has four digits or more, and a minus sign before the year 0. -/
def readYear (s : Text) : Option (Int × Text) :=
  let (sign, s) :=
    match s with
    | '-' :: rest => (-1, rest)
    | _ => ((1 : Int), s)
  let year := s.takeWhile Char.isDigit
  if year.length = 4 ∨ (4 < year.length ∧ year.head? ≠ some '0') then
    some (sign * (Nat.ofDigitChars 10 year 0 : Int), s.dropWhile Char.isDigit)
  else none

def daysInMonth (year : Int) (month : Nat) : Nat :=
  if month = 2 then if year % 4 = 0 ∧ (year % 100 ≠ 0 ∨ year % 400 = 0) then 29 else 28
  else if month = 4 ∨ month = 6 ∨ month = 9 ∨ month = 11 then 30 else 31

/-- The days since the epoch; years are counted from March, in eras of 400 years. -/
def epochDay (year : Int) (month day : Nat) : Int :=
  let year := if month ≤ 2 then year - 1 else year
  let yearOfEra := year % 400
  let dayOfYear : Int := ((153 * ((month + 9) % 12) + 2) / 5 + day - 1 : Nat)
  year / 400 * 146097 + (yearOfEra * 365 + yearOfEra / 4 - yearOfEra / 100 + dayOfYear) - 719468

def readDay (s : Text) : Option (Int × Text) := do
  let (year, s) ← readYear s
  let s ← expect '-' s
  let (month, s) ← twoDigits s
  let s ← expect '-' s
  let (day, s) ← twoDigits s
  if 1 ≤ month ∧ month ≤ 12 ∧ 1 ≤ day ∧ day ≤ daysInMonth year month then
    some (epochDay year month day, s)
  else none

/-- The offset of the zone in seconds, if there is one. -/
def readZone : Text → Option (Option Int)
  | [] => some none
  | ['Z'] => some (some 0)
  | sign :: s => do
    let (hours, s) ← twoDigits s
    let s ← expect ':' s
    let (minutes, s) ← twoDigits s
    let offset : Int := (hours * 60 + minutes : Nat) * 60
    if s = [] ∧ minutes < 60 ∧ offset ≤ 50400 then
      if sign = '+' then some (some offset)
      else if sign = '-' then some (some (-offset)) else none
    else none

def moment (seconds : ℚ) (zone : Option Int) : Moment := ⟨seconds - zone.getD 0, zone.isSome⟩

/-- The text of an `xsd:date`, which stands for the beginning of the day. -/
def readDate (s : Text) : Option Moment := do
  let (day, s) ← readDay s
  let zone ← readZone s
  some (moment (day * 86400) zone)

/-- Digits after a point, if there is one. -/
def readFraction : Text → Option (ℚ × Text)
  | '.' :: s =>
    let digits := s.takeWhile Char.isDigit
    if digits = [] then none
    else some (Nat.ofDigitChars 10 digits 0 / 10 ^ digits.length, s.dropWhile Char.isDigit)
  | s => some (0, s)

/-- The text of an `xsd:dateTime`. -/
def readDateTime (s : Text) : Option Moment := do
  let (day, s) ← readDay s
  let s ← expect 'T' s
  let (hour, s) ← twoDigits s
  let s ← expect ':' s
  let (minute, s) ← twoDigits s
  let s ← expect ':' s
  let (second, s) ← twoDigits s
  let (fraction, s) ← readFraction s
  let zone ← readZone s
  if (hour < 24 ∧ minute < 60 ∧ second < 60) ∨
      (hour = 24 ∧ minute = 0 ∧ second = 0 ∧ fraction = 0) then
    some (moment (day * 86400 + (hour * 3600 + minute * 60 + second : Nat) + fraction) zone)
  else none

example : readDateTime "1969-12-31T23:59:59.5-01:00".toList = some ⟨7199 / 2, true⟩ := by
  decide +kernel

/-- The value of a numeric literal, a date or a date-time. -/
inductive Value where
  | number (n : Number)
  | date (m : Moment)
  | dateTime (m : Moment)

def literalValue (lexical datatype : Text) : Option Value :=
  if datatype = xsd "date" then (readDate lexical).map .date
  else if datatype = xsd "dateTime" then (readDateTime lexical).map .dateTime
  else (readNumber lexical datatype).map .number

/-- The order of two values of one kind. -/
def Value.order : Value → Value → Option Ordering
  | .number p, .number q => some (cmp p q)
  | .date a, .date b => a.order b
  | .dateTime a, .dateTime b => a.order b
  | _, _ => none

section Texts

variable {s lexical datatype : Text} {c : Char}

/-- A digit, a sign, a point or the letter of an infinity. -/
def Starts (s : Text) : Prop :=
  ∃ c rest, s = c :: rest ∧ (c.isDigit = true ∨ c ∈ ['-', '+', '.', 'I'])

theorem quote_lt_of_starts (start : c.isDigit = true ∨ c ∈ ['-', '+', '.', 'I']) : '"' < c := by
  obtain digit | listed := start
  · have bounds : 48 ≤ c.val ∧ c.val ≤ 57 := by simpa [Char.isDigit] using digit
    exact Char.lt_def.mpr (UInt32.lt_of_lt_of_le (by decide) bounds.1)
  · revert listed
    simp only [List.mem_cons, List.not_mem_nil, or_false]
    rintro (rfl | rfl | rfl | rfl)
    all_goals decide

theorem starts_of_takeWhile (digits : s.takeWhile Char.isDigit ≠ []) : Starts s := by
  cases s with
  | nil => exact absurd rfl digits
  | cons c rest =>
    refine ⟨c, rest, rfl, .inl ?_⟩
    by_contra other
    exact digits (List.takeWhile_cons_of_neg other)

theorem starts_of_mantissa {r : ℚ × Text} (h : mantissa s = some r) : Starts s := by
  by_cases whole : s.takeWhile Char.isDigit = []
  · cases s with
    | nil => cases h
    | cons c rest =>
      have other : ¬c.isDigit = true := by
        intro digit
        rw [List.takeWhile_cons_of_pos digit] at whole
        cases whole
      by_cases point : c = '.'
      · exact ⟨c, rest, rfl, .inr (by simp [point])⟩
      · rw [mantissa, List.dropWhile_cons_of_neg other, whole] at h
        simp [point] at h
  · exact starts_of_takeWhile whole

theorem starts_of_signed {read : Text → Option ℚ} {q : ℚ}
    (starts : ∀ s q, read s = some q → Starts s) (h : signed read s = some q) : Starts s := by
  unfold signed at h
  split at h
  · exact ⟨'-', _, rfl, .inr (by simp)⟩
  · exact ⟨'+', _, rfl, .inr (by simp)⟩
  · exact starts _ _ h

theorem digits_of_parseDigits {n : Nat} (h : parseDigits s = some n) :
    s ≠ [] ∧ (∀ c ∈ s, c.isDigit = true) ∧ Nat.ofDigitChars 10 s 0 = n := by
  unfold parseDigits at h
  split at h
  · rename_i digits
    exact ⟨digits.1, List.all_eq_true.mp digits.2, Option.some.inj h⟩
  · cases h

theorem starts_of_parseDigits {n : Nat} (h : parseDigits s = some n) : Starts s := by
  obtain ⟨some', digits, -⟩ := digits_of_parseDigits h
  cases s with
  | nil => exact absurd rfl some'
  | cons c rest => exact ⟨c, rest, rfl, .inl (digits c List.mem_cons_self)⟩

theorem starts_of_parseInteger {v : Int} (h : parseInteger s = some v) : Starts s := by
  unfold parseInteger at h
  split at h
  · exact ⟨'-', _, rfl, .inr (by simp)⟩
  · exact ⟨'+', _, rfl, .inr (by simp)⟩
  · obtain ⟨n, read, -⟩ := Option.map_eq_some_iff.mp h
    exact starts_of_parseDigits read

theorem starts_of_readDouble {n : Number} (h : readDouble s = some n) : Starts s := by
  unfold readDouble at h
  split at h
  · rename_i infinite
    obtain rfl | rfl := infinite
    · exact ⟨'I', _, rfl, .inr (by simp)⟩
    · exact ⟨'+', _, rfl, .inr (by simp)⟩
  · split at h
    · rename_i infinite
      rw [infinite]
      exact ⟨'-', _, rfl, .inr (by simp)⟩
    · obtain ⟨q, read, -⟩ := Option.map_eq_some_iff.mp h
      refine starts_of_signed ?_ read
      intro s q read
      obtain ⟨r, read, -⟩ := Option.bind_eq_some_iff.mp read
      exact starts_of_mantissa read

theorem starts_of_readNumber {n : Number} (h : readNumber lexical datatype = some n) :
    Starts lexical := by
  unfold readNumber at h
  split at h
  · obtain ⟨v, read, -⟩ := Option.map_eq_some_iff.mp h
    exact starts_of_parseInteger read
  split at h
  · obtain ⟨q, read, -⟩ := Option.map_eq_some_iff.mp h
    refine starts_of_signed ?_ read
    intro s q read
    obtain ⟨r, read, -⟩ := Option.bind_eq_some_iff.mp read
    exact starts_of_mantissa read
  split at h
  · exact starts_of_readDouble h
  · cases h

theorem starts_of_readDay {r : Int × Text} (h : readDay s = some r) : Starts s := by
  obtain ⟨year, read, -⟩ := Option.bind_eq_some_iff.mp h
  by_cases minus : ∃ rest, s = '-' :: rest
  · obtain ⟨rest, rfl⟩ := minus
    exact ⟨'-', rest, rfl, .inr (by simp)⟩
  · refine starts_of_takeWhile ?_
    intro none
    unfold readYear at read
    split at read
    · rename_i sign rest same
      split at same
      · exact minus ⟨_, rfl⟩
      · cases same
        simp [none] at read

theorem starts_of_literalValue {v : Value} (h : literalValue lexical datatype = some v) :
    Starts lexical := by
  unfold literalValue at h
  split at h
  · obtain ⟨m, read, -⟩ := Option.map_eq_some_iff.mp h
    obtain ⟨day, read, -⟩ := Option.bind_eq_some_iff.mp read
    exact starts_of_readDay read
  split at h
  · obtain ⟨m, read, -⟩ := Option.map_eq_some_iff.mp h
    obtain ⟨day, read, -⟩ := Option.bind_eq_some_iff.mp read
    exact starts_of_readDay read
  · obtain ⟨n, read, -⟩ := Option.map_eq_some_iff.mp h
    exact starts_of_readNumber read

end Texts

section Doubles

variable {s lexical datatype : Text}

theorem mantissa_of_parseDigits {n : Nat} (h : parseDigits s = some n) :
    mantissa s = some ((n : ℚ), []) := by
  obtain ⟨some', digits, value⟩ := digits_of_parseDigits h
  have whole : s.takeWhile Char.isDigit = s := List.takeWhile_eq_self_iff.mpr digits
  have rest : s.dropWhile Char.isDigit = [] := List.dropWhile_eq_nil_iff.mpr digits
  simp [mantissa, whole, rest, some', value]

theorem readDecimal_of_parseInteger {v : Int} (h : parseInteger s = some v) :
    readDecimal s = some (v : ℚ) := by
  unfold parseInteger at h
  split at h
  · obtain ⟨n, read, rfl⟩ := Option.map_eq_some_iff.mp h
    simp [readDecimal, signed, mantissa_of_parseDigits read]
  · obtain ⟨n, read, rfl⟩ := Option.map_eq_some_iff.mp h
    simp [readDecimal, signed, mantissa_of_parseDigits read]
  · rename_i minus plus
    obtain ⟨n, read, rfl⟩ := Option.map_eq_some_iff.mp h
    rw [readDecimal, signed.eq_3 _ _ minus plus, mantissa_of_parseDigits read]
    simp

theorem signed_mono {read read' : Text → Option ℚ} {q : ℚ}
    (more : ∀ s q, read s = some q → read' s = some q) (h : signed read s = some q) :
    signed read' s = some q := by
  unfold signed at h ⊢
  split at h
  · obtain ⟨r, found, rfl⟩ := Option.map_eq_some_iff.mp h
    rw [more _ _ found]
    rfl
  · exact more _ _ h
  · exact more _ _ h

theorem readFinite_of_readDecimal {q : ℚ} (h : readDecimal s = some q) :
    readFinite s = some q := by
  refine signed_mono ?_ h
  intro s q read
  obtain ⟨⟨r, rest⟩, found, read⟩ := Option.bind_eq_some_iff.mp read
  dsimp only at read
  split at read
  · rename_i none
    subst none
    rw [found]
    exact read
  · cases read

theorem readDouble_of_readDecimal {q : ℚ} (h : readDecimal s = some q) :
    readDouble s = some (Number.finite q) := by
  have finite := readFinite_of_readDecimal h
  have infinite : readFinite "INF".toList = none ∧ readFinite "+INF".toList = none ∧
      readFinite "-INF".toList = none := by decide
  unfold readDouble
  split
  · rename_i named
    obtain rfl | rfl := named
    · rw [infinite.1] at finite
      cases finite
    · rw [infinite.2.1] at finite
      cases finite
  split
  · rename_i named
    rw [named, infinite.2.2] at finite
    cases finite
  · rw [finite]
    rfl

/-- Whatever the datatype is, the text is one of a double with the same value. -/
theorem readDouble_of_readNumber {n : Number} (h : readNumber lexical datatype = some n) :
    readDouble lexical = some n := by
  unfold readNumber at h
  split at h
  · obtain ⟨v, read, rfl⟩ := Option.map_eq_some_iff.mp h
    exact readDouble_of_readDecimal (readDecimal_of_parseInteger read)
  split at h
  · obtain ⟨q, read, rfl⟩ := Option.map_eq_some_iff.mp h
    exact readDouble_of_readDecimal read
  split at h
  · exact h
  · cases h

/-- The text of a decimal has only digits, signs and points. -/
theorem chars_of_readDecimal {q : ℚ} (h : readDecimal s = some q) :
    ∀ c ∈ s, c.isDigit = true ∨ c ∈ ['-', '+', '.'] := by
  have unsigned {s : Text} {q : ℚ}
      (read : ((mantissa s).bind fun r => if r.2 = [] then some r.1 else none) = some q) :
      ∀ c ∈ s, c.isDigit = true ∨ c ∈ ['-', '+', '.'] := by
    obtain ⟨⟨r, rest⟩, found, ends⟩ := Option.bind_eq_some_iff.mp read
    have none : rest = [] := by
      by_contra other
      simp [other] at ends
    subst none
    intro c hc
    rw [← List.takeWhile_append_dropWhile (p := Char.isDigit) (l := s)] at hc
    obtain hc | hc := List.mem_append.mp hc
    · exact .inl (List.mem_takeWhile_imp hc)
    · unfold mantissa at found
      split at found
      rename_i fraction rest' same
      dsimp only at found
      split at found
      · cases found
      cases found
      split at same
      · rename_i after point
        obtain ⟨-, none⟩ := Prod.mk.inj same
        rw [point] at hc
        obtain rfl | hc := List.mem_cons.mp hc
        · exact .inr (by simp)
        · exact .inl (List.dropWhile_eq_nil_iff.mp none c hc)
      · obtain ⟨-, none⟩ := Prod.mk.inj same
        rw [none] at hc
        cases hc
  unfold readDecimal signed at h
  split at h
  · obtain ⟨r, read, -⟩ := Option.map_eq_some_iff.mp h
    exact List.forall_mem_cons.mpr ⟨.inr (by simp), unsigned read⟩
  · exact List.forall_mem_cons.mpr ⟨.inr (by simp), unsigned h⟩
  · exact unsigned h

end Doubles

end PgRipple.Shacl
