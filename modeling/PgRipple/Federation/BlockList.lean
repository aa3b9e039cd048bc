import PgRipple.Federation.Policy

/-!
# What the block list blocks

The tests on texts are compared with the networks that they stand for. IPv4 addresses and
their mapped forms are judged as they should be. IPv6 addresses are judged by the first
letters of the first segment, written without leading zeros: `fe80` is not all of fe80::/10,
and `fc` and `fd` also begin shorter segments. What follows `::ffff:` is judged as a text of
its own, whether or not it is an IPv4 address.
-/

namespace PgRipple.Federation

open Dictionary (Text parseDigits)
open Split

section Digits

variable {n m : Nat} {c : Char}

/-- The characters of canonical texts. -/
def isAddressChar (c : Char) : Bool := c.isDigit || c ∈ "abcdef.:".toList

theorem toLower_of_isAddressChar (h : isAddressChar c = true) : c.toLower = c := by
  have low : ¬ (65 ≤ c.val ∧ c.val ≤ 90) := by
    rw [isAddressChar, Bool.or_eq_true, decide_eq_true_iff] at h
    obtain digit | letter := h
    · simp only [Char.isDigit, Bool.and_eq_true, decide_eq_true_iff] at digit
      rintro ⟨low, -⟩
      exact absurd (UInt32.le_trans low digit.2) (by decide)
    · have all : ("abcdef.:".toList.all fun c => decide (¬ (65 ≤ c.val ∧ c.val ≤ 90))) = true := by
        decide
      exact of_decide_eq_true (List.all_eq_true.mp all c letter)
  exact dif_neg (by simpa using low)

theorem isAddressChar_decimal (h : c ∈ decimal n) : isAddressChar c = true := by
  rw [isAddressChar, Nat.isDigit_of_mem_toDigits (by decide) (by decide) h, Bool.true_or]

theorem notMem_decimal (h : c.isDigit = false) : c ∉ decimal n := by
  intro mem
  rw [Nat.isDigit_of_mem_toDigits (by decide) (by decide) mem] at h
  cases h

theorem decimal_injective (h : decimal n = decimal m) : n = m := by
  rw [← Nat.ofDigitChars_ten_toDigits (n := n), ← Nat.ofDigitChars_ten_toDigits (n := m)]
  exact congrArg (Nat.ofDigitChars 10 · 0) h

theorem dropPlus_eq_self {s : Text} (h : '+' ∉ s) : dropPlus s = s := by
  rw [dropPlus.eq_def]
  split
  · exact absurd List.mem_cons_self h
  · rfl

theorem parseUnsigned_decimal (bound : Nat) (h : n < bound) :
    parseUnsigned bound (decimal n) = some n := by
  rw [parseUnsigned, dropPlus_eq_self (notMem_decimal (by decide)), decimal,
    Dictionary.parseDigits_toDigits, Option.filter_some,
    decide_eq_true h, if_pos rfl]

/-- Digits up to a dot are read as one number. -/
theorem firstOctetIn_decimal {low high : Nat} {r : Text} (small : n < 256) :
    firstOctetIn low high (decimal n ++ '.' :: r) = true ↔ low ≤ n ∧ n ≤ high := by
  rw [firstOctetIn, takeWhile_ne_marked (notMem_decimal (by decide)),
    parseUnsigned_decimal 256 small]
  simp

end Digits

theorem map_toLower {s : Text} (h : ∀ c ∈ s, isAddressChar c = true) : s.map Char.toLower = s := by
  have same : s.map Char.toLower = s.map id :=
    List.map_congr_left fun c hc => toLower_of_isAddressChar (h c hc)
  rw [same, List.map_id]

theorem isBlockedHost_eq (host : Text) :
    isBlockedHost host = (isBlockedText host ||
      ("::ffff:".toList.isPrefixOf? (host.map Char.toLower)).any isBlockedHost) := by
  rw [isBlockedHost]
  split
  · rename_i part found
    rw [found, Option.any_some]
  · rename_i found
    rw [found, Option.any_none]

theorem isBlockedText_iff {host : Text} (h : ∀ c ∈ host, isAddressChar c = true) :
    isBlockedText host = true ↔
      host = "::1".toList ∨ "127.".toList <+: host ∨ "169.254.".toList <+: host ∨
      "fe80".toList <+: host ∨ "fc".toList <+: host ∨ "fd".toList <+: host ∨
      "10.".toList <+: host ∨
      (∃ r, host = "172.".toList ++ r ∧ firstOctetIn 16 31 r = true) ∨
      "192.168.".toList <+: host ∨
      (∃ r, host = "100.".toList ++ r ∧ firstOctetIn 64 127 r = true) ∨
      firstOctetIn 224 239 host = true ∨ "0.".toList <+: host := by
  have notLocal : host ≠ "localhost".toList := by
    rintro rfl
    exact absurd (h 'l' (by decide)) (by decide)
  have loopback : host = "127.0.0.1".toList → "127.".toList <+: host := by
    rintro rfl
    exact ⟨"0.0.1".toList, by decide⟩
  simp only [isBlockedText, map_toLower h, Bool.or_eq_true, beq_iff_eq, notLocal, false_or,
    List.isPrefixOf_iff_prefix, Option.any_eq_true, isPrefixOf?_eq_some_iff, or_assoc]
  constructor
  · rintro (exact | tests)
    · exact .inr (.inl (loopback exact))
    · exact tests
  · exact .inr

namespace Ipv4Addr

variable {x : Ipv4Addr}

theorem isAddressChar_text {c : Char} (h : c ∈ x.text) : isAddressChar c = true := by
  simp only [text, List.mem_append, List.mem_cons] at h
  obtain h | rfl | h | rfl | h | rfl | h := h
  · exact isAddressChar_decimal h
  · decide
  · exact isAddressChar_decimal h
  · decide
  · exact isAddressChar_decimal h
  · decide
  · exact isAddressChar_decimal h

/-- A text that starts with a number and a dot. -/
theorem text_prefix_iff {k : Nat} {p : Text} :
    decimal k ++ '.' :: p <+: x.text ↔
      x.a = k ∧ p <+: decimal x.b ++ '.' :: (decimal x.c ++ '.' :: decimal x.d) := by
  rw [text, marked_prefix_iff (notMem_decimal (by decide)) (notMem_decimal (by decide))]
  refine and_congr_left fun _ => ?_
  constructor
  · intro same
    exact (decimal_injective same).symm
  · rintro same
    rw [same]

theorem text_eq_append_iff {k : Nat} {r : Text} :
    x.text = decimal k ++ '.' :: r ↔
      x.a = k ∧ decimal x.b ++ '.' :: (decimal x.c ++ '.' :: decimal x.d) = r := by
  constructor
  · intro same
    have begins : decimal k ++ '.' :: r <+: x.text := ⟨[], by rw [same, List.append_nil]⟩
    obtain ⟨first, -⟩ := text_prefix_iff.mp begins
    rw [text, first] at same
    exact ⟨first, List.cons.inj (List.append_cancel_left same) |>.2⟩
  · rintro ⟨first, rfl⟩
    rw [text, first]

/-- Which first two numbers are internal. -/
theorem internal_iff :
    x.Internal ↔ (x.a : Nat) = 0 ∨ (x.a : Nat) = 10 ∨
      ((x.a : Nat) = 100 ∧ 64 ≤ (x.b : Nat) ∧ (x.b : Nat) ≤ 127) ∨ (x.a : Nat) = 127 ∨
      ((x.a : Nat) = 169 ∧ (x.b : Nat) = 254) ∨
      ((x.a : Nat) = 172 ∧ 16 ≤ (x.b : Nat) ∧ (x.b : Nat) ≤ 31) ∨
      ((x.a : Nat) = 192 ∧ (x.b : Nat) = 168) ∨ 224 ≤ (x.a : Nat) ∧ (x.a : Nat) ≤ 239 := by
  obtain ⟨⟨a, ha⟩, ⟨b, hb⟩, ⟨c, hc⟩, ⟨d, hd⟩⟩ := x
  simp only [Internal, internalNets, List.exists_mem_cons_iff, List.not_mem_nil, false_and,
    exists_false, or_false, InNet, value]
  refine or_congr ?_ (or_congr ?_ (or_congr ?_ (or_congr ?_ (or_congr ?_ (or_congr ?_
    (or_congr ?_ ?_)))))) <;> omega

/-- IPv4 addresses are blocked as they should be. -/
theorem isBlockedHost_text : isBlockedHost x.text = true ↔ x.Internal := by
  have plain := fun c => @isAddressChar_text x c
  have digit : ∀ c r, x.text = c :: r → c.isDigit = true := by
    intro c r same
    have nonempty : decimal x.a ≠ [] := Nat.toDigits_ne_nil
    obtain ⟨d, ds, text⟩ := List.exists_cons_of_ne_nil nonempty
    rw [Ipv4Addr.text, text, List.cons_append] at same
    rw [← (List.cons.inj same).1]
    exact Nat.isDigit_of_mem_toDigits (by decide) (by decide) (text ▸ List.mem_cons_self)
  have letter {p : Text} {c : Char} (h : c.isDigit = false) : ¬ c :: p <+: x.text := by
    rintro ⟨r, same⟩
    rw [digit c (p ++ r) same.symm] at h
    cases h
  have unmapped : "::ffff:".toList.isPrefixOf? (x.text.map Char.toLower) = none := by
    rw [map_toLower plain, isPrefixOf?_eq_none_iff]
    exact letter (by decide)
  have notLoopback : x.text ≠ "::1".toList := by
    intro same
    exact absurd (digit ':' _ same) (by decide)
  rw [isBlockedHost_eq, unmapped, Option.any_none, Bool.or_false, isBlockedText_iff plain,
    internal_iff]
  have one (k : Nat) : decimal k ++ ['.'] <+: x.text ↔ x.a = k := by
    rw [text_prefix_iff]
    exact and_iff_left List.nil_prefix
  have two (k l : Nat) : decimal k ++ '.' :: (decimal l ++ ['.']) <+: x.text ↔
      x.a = k ∧ x.b = l := by
    rw [text_prefix_iff, marked_prefix_iff (notMem_decimal (by decide))
      (notMem_decimal (by decide))]
    refine and_congr_right fun _ => ?_
    rw [and_iff_left List.nil_prefix]
    constructor
    · exact fun same => (decimal_injective same).symm
    · exact fun same => congrArg decimal same.symm
  have range (k low high : Nat) :
      (∃ r, x.text = decimal k ++ '.' :: r ∧ firstOctetIn low high r = true) ↔
        x.a = k ∧ low ≤ x.b ∧ x.b ≤ high := by
    simp only [text_eq_append_iff]
    constructor
    · rintro ⟨r, ⟨first, rfl⟩, second⟩
      exact ⟨first, (firstOctetIn_decimal x.b.isLt).mp second⟩
    · rintro ⟨first, second⟩
      exact ⟨_, ⟨first, rfl⟩, (firstOctetIn_decimal x.b.isLt).mpr second⟩
  have t127 : "127.".toList <+: x.text ↔ (x.a : Nat) = 127 := one 127
  have t169 : "169.254.".toList <+: x.text ↔ (x.a : Nat) = 169 ∧ (x.b : Nat) = 254 := two 169 254
  have t10 : "10.".toList <+: x.text ↔ (x.a : Nat) = 10 := one 10
  have t172 : (∃ r, x.text = "172.".toList ++ r ∧ firstOctetIn 16 31 r = true) ↔
      (x.a : Nat) = 172 ∧ 16 ≤ (x.b : Nat) ∧ (x.b : Nat) ≤ 31 := range 172 16 31
  have t192 : "192.168.".toList <+: x.text ↔ (x.a : Nat) = 192 ∧ (x.b : Nat) = 168 := two 192 168
  have t100 : (∃ r, x.text = "100.".toList ++ r ∧ firstOctetIn 64 127 r = true) ↔
      (x.a : Nat) = 100 ∧ 64 ≤ (x.b : Nat) ∧ (x.b : Nat) ≤ 127 := range 100 64 127
  have t0 : "0.".toList <+: x.text ↔ (x.a : Nat) = 0 := one 0
  have t224 : firstOctetIn 224 239 x.text = true ↔ 224 ≤ (x.a : Nat) ∧ (x.a : Nat) ≤ 239 :=
    firstOctetIn_decimal x.a.isLt
  have fe : ¬ "fe80".toList <+: x.text := letter (by decide)
  have fc : ¬ "fc".toList <+: x.text := letter (by decide)
  have fd : ¬ "fd".toList <+: x.text := letter (by decide)
  rw [t127, t169, t10, t172, t192, t100, t0, t224]
  simp only [notLoopback, fe, fc, fd, false_or]
  apply Iff.of_eq
  ac_rfl

end Ipv4Addr

section Hex

variable {n : Nat} {c : Char} {r t : Text}

theorem hex_cases (h : n < 65536) :
    (n < 16 ∧ hex n = [n.digitChar]) ∨
    (16 ≤ n ∧ n < 256 ∧ hex n = [(n / 16).digitChar, (n % 16).digitChar]) ∨
    (256 ≤ n ∧ n < 4096 ∧
      hex n = [(n / 256).digitChar, (n / 16 % 16).digitChar, (n % 16).digitChar]) ∨
    (4096 ≤ n ∧ hex n = [(n / 4096).digitChar, (n / 256 % 16).digitChar, (n / 16 % 16).digitChar,
      (n % 16).digitChar]) := by
  have last {m : Nat} (small : m < 16) : Nat.toDigits 16 m = [m.digitChar] :=
    Nat.toDigits_of_lt_base small
  have step {m : Nat} (large : 16 ≤ m) :
      Nat.toDigits 16 m = Nat.toDigits 16 (m / 16) ++ [(m % 16).digitChar] :=
    Nat.toDigits_of_base_le (by decide) large
  rw [hex]
  by_cases one : n < 16
  · exact .inl ⟨one, last one⟩
  · rw [step (by omega)]
    by_cases two : n < 256
    · rw [last (by omega)]
      exact .inr (.inl ⟨by omega, two, rfl⟩)
    · rw [step (m := n / 16) (by omega), Nat.div_div_eq_div_mul]
      by_cases three : n < 4096
      · rw [last (by omega)]
        exact .inr (.inr (.inl ⟨by omega, three, rfl⟩))
      · rw [step (m := n / (16 * 16)) (by omega), Nat.div_div_eq_div_mul, last (by omega)]
        exact .inr (.inr (.inr ⟨by omega, rfl⟩))

theorem isAddressChar_digitChar {d : Nat} (h : d < 16) : isAddressChar d.digitChar = true := by
  have all : ∀ d : Fin 16, isAddressChar (d : Nat).digitChar = true := by decide
  exact all ⟨d, h⟩

theorem mem_hex (small : n < 65536) (h : c ∈ hex n) : ∃ d < 16, c = d.digitChar := by
  obtain ⟨_, text⟩ | ⟨_, _, text⟩ | ⟨_, _, text⟩ | ⟨_, text⟩ := hex_cases small
  · rw [text, List.mem_singleton] at h
    exact ⟨n, by omega, h⟩
  · simp only [text, List.mem_cons, List.not_mem_nil, or_false] at h
    obtain rfl | rfl := h
    · exact ⟨_, by omega, rfl⟩
    · exact ⟨_, by omega, rfl⟩
  · simp only [text, List.mem_cons, List.not_mem_nil, or_false] at h
    obtain rfl | rfl | rfl := h
    · exact ⟨_, by omega, rfl⟩
    · exact ⟨_, by omega, rfl⟩
    · exact ⟨_, by omega, rfl⟩
  · simp only [text, List.mem_cons, List.not_mem_nil, or_false] at h
    obtain rfl | rfl | rfl | rfl := h
    · exact ⟨_, by omega, rfl⟩
    · exact ⟨_, by omega, rfl⟩
    · exact ⟨_, by omega, rfl⟩
    · exact ⟨_, by omega, rfl⟩

theorem hex_prefix_fe80 (h : n < 65536) : "fe80".toList <+: hex n ↔ n = 0xfe80 := by
  have chars : "fe80".toList = ['f', 'e', '8', '0'] := by decide
  rw [chars]
  obtain ⟨_, text⟩ | ⟨_, _, text⟩ | ⟨_, _, text⟩ | ⟨_, text⟩ := hex_cases h <;>
    simp [text, List.cons_prefix_cons] <;> omega

/-- Segments that begin with `fc` or `fd`. -/
def BeginsLocal (n : Nat) : Prop :=
  n = 0xfc ∨ n = 0xfd ∨ (0xfc0 ≤ n ∧ n ≤ 0xfdf) ∨ (0xfc00 ≤ n ∧ n ≤ 0xfdff)

theorem hex_prefix_fc_fd (h : n < 65536) :
    ("fc".toList <+: hex n ∨ "fd".toList <+: hex n) ↔ BeginsLocal n := by
  have fc : "fc".toList = ['f', 'c'] := by decide
  have fd : "fd".toList = ['f', 'd'] := by decide
  rw [fc, fd, BeginsLocal]
  obtain ⟨_, text⟩ | ⟨_, _, text⟩ | ⟨_, _, text⟩ | ⟨_, text⟩ := hex_cases h <;>
    simp [text, List.cons_prefix_cons] <;> omega

theorem hex_eq_ffff (h : n < 65536) : "ffff".toList = hex n ↔ n = 0xffff := by
  have chars : "ffff".toList = ['f', 'f', 'f', 'f'] := by decide
  rw [chars]
  obtain ⟨_, text⟩ | ⟨_, _, text⟩ | ⟨_, _, text⟩ | ⟨_, text⟩ := hex_cases h <;>
    simp [text] <;> omega

theorem hex_eq_one (h : n < 65536) : hex n = ['1'] ↔ n = 1 := by
  obtain ⟨_, text⟩ | ⟨_, _, text⟩ | ⟨_, _, text⟩ | ⟨_, text⟩ := hex_cases h <;>
    simp [text] <;> omega

theorem notMem_hex (h : n < 65536) (other : ∀ d : Fin 16, (d : Nat).digitChar ≠ c) :
    c ∉ hex n := by
  intro mem
  obtain ⟨d, hd, same⟩ := mem_hex h mem
  exact other ⟨d, hd⟩ same.symm

theorem takeWhile_eq_self {s : Text} (h : '.' ∉ s) :
    s.takeWhile (fun c => decide (c ≠ '.')) = s := by
  rw [List.takeWhile_eq_self_iff]
  intro c hc
  rw [decide_eq_true_iff]
  rintro rfl
  exact h hc

/-- A text with a character that is no digit is no number. -/
theorem firstOctetIn_of_notDigit {s : Text} {low high : Nat} (noDot : '.' ∉ s) (noPlus : '+' ∉ s)
    (mem : c ∈ s) (other : c.isDigit = false) : firstOctetIn low high s = false := by
  have digits : s.all Char.isDigit = false := by
    rw [List.all_eq_false]
    exact ⟨c, mem, by rw [other]; decide⟩
  rw [firstOctetIn, takeWhile_eq_self noDot, parseUnsigned, dropPlus_eq_self noPlus, parseDigits,
    if_neg (by rw [digits]; simp)]
  rfl

theorem any_filter_some {v low high : Nat} (octet : high < 256) :
    ((some v).filter (· < 256)).any (fun n => low ≤ n && n ≤ high) = true ↔
      low ≤ v ∧ v ≤ high := by
  by_cases small : v < 256
  · simp [Option.filter_some, small]
  · simp only [Option.filter_some, small, decide_false, Bool.false_eq_true, if_false,
      Option.any_none, false_iff]
    omega

/-- Three digits, read in base 10 and in base 16. -/
theorem three_digits (i j k : Nat) (hi : i < 10) (hj : j < 10) (hk : k < 10) :
    (224 ≤ 100 * i + 10 * j + k ∧ 100 * i + 10 * j + k ≤ 239) ↔
      (0x224 ≤ 256 * i + 16 * j + k ∧ 256 * i + 16 * j + k ≤ 0x229) ∨
      (0x230 ≤ 256 * i + 16 * j + k ∧ 256 * i + 16 * j + k ≤ 0x239) := by
  by_cases two : i = 2
  · subst two
    by_cases second : j = 2 ∨ j = 3
    · omega
    · omega
  · omega

/-- A single segment is read as a decimal number. -/
theorem firstOctetIn_hex (h : n < 65536) :
    firstOctetIn 224 239 (hex n) = true ↔
      (0x224 ≤ n ∧ n ≤ 0x229) ∨ (0x230 ≤ n ∧ n ≤ 0x239) := by
  have noDot : '.' ∉ hex n := notMem_hex h (by decide)
  have noPlus : '+' ∉ hex n := notMem_hex h (by decide)
  rw [firstOctetIn, takeWhile_eq_self noDot, parseUnsigned, dropPlus_eq_self noPlus, parseDigits]
  have high : n / 256 = n / 16 / 16 := (Nat.div_div_eq_div_mul n 16 16).symm
  obtain ⟨_, text⟩ | ⟨_, _, text⟩ | ⟨_, _, text⟩ | ⟨_, text⟩ := hex_cases h
  all_goals
    simp only [text, List.all_cons, List.all_nil, Nat.isDigit_digitChar, Bool.and_true,
      Bool.and_eq_true, decide_eq_true_eq, ne_eq, List.cons_ne_nil, not_false_eq_true, true_and]
    split
    · rename_i digits
      simp (disch := omega) only [Nat.ofDigitChars_cons_digitChar_of_lt_ten, Nat.ofDigitChars_nil]
      rw [any_filter_some (by decide)]
      first
      | omega
      | have digits := three_digits (n / 256) (n / 16 % 16) (n % 16) (by omega) (by omega)
          (by omega)
        omega
    · simp only [Option.filter_none, Option.any_none, Bool.false_eq_true, false_iff]
      omega

end Hex

section Dotless

variable {n : Nat} {rest : List Nat} {s t : Text} {c : Char}

theorem joinSegments_cons (n : Nat) (rest : List Nat) :
    (rest = [] ∧ joinSegments (n :: rest) = hex n) ∨
      ∃ r, joinSegments (n :: rest) = hex n ++ ':' :: r := by
  cases rest with
  | nil => exact .inl ⟨rfl, rfl⟩
  | cons m rest => exact .inr ⟨_, rfl⟩

theorem mem_joinSegments (small : ∀ n ∈ rest, n < 65536) (h : c ∈ joinSegments rest) :
    c = ':' ∨ ∃ d < 16, c = d.digitChar := by
  induction rest using joinSegments.induct with
  | case1 => cases h
  | case2 n => exact .inr (mem_hex (small n List.mem_cons_self) h)
  | case3 n m rest ih =>
    rw [joinSegments, List.mem_append, List.mem_cons] at h
    obtain digit | colon | later := h
    · exact .inr (mem_hex (small n List.mem_cons_self) digit)
    · exact .inl colon
    · exact ih (fun k hk => small k (List.mem_cons_of_mem n hk)) later

/-- Characters of segments and colons. -/
def IsSegmentText (s : Text) : Prop := ∀ c ∈ s, c = ':' ∨ ∃ d < 16, c = d.digitChar

theorem IsSegmentText.isAddressChar (h : IsSegmentText s) : ∀ c ∈ s, isAddressChar c = true := by
  intro c hc
  obtain rfl | ⟨d, hd, rfl⟩ := h c hc
  · decide
  · exact isAddressChar_digitChar hd

theorem IsSegmentText.notMem (h : IsSegmentText s) (colon : c ≠ ':')
    (other : ∀ d : Fin 16, (d : Nat).digitChar ≠ c) : c ∉ s := by
  intro mem
  obtain rfl | ⟨d, hd, same⟩ := h c mem
  · exact colon rfl
  · exact other ⟨d, hd⟩ same.symm

/-- Without dots only the tests for IPv6 and the single number are left. -/
theorem IsSegmentText.isBlockedText_iff (h : IsSegmentText s) :
    isBlockedText s = true ↔ s = "::1".toList ∨ "fe80".toList <+: s ∨
      ("fc".toList <+: s ∨ "fd".toList <+: s) ∨ firstOctetIn 224 239 s = true := by
  have dotless {p : Text} (dot : '.' ∈ p) : ¬ p <+: s := by
    rintro ⟨r, rfl⟩
    exact h.notMem (by decide) (by decide) (List.mem_append_left r dot)
  have range {p : Text} {f : Text → Bool} (dot : '.' ∈ p) : ¬ ∃ r, s = p ++ r ∧ f r = true := by
    rintro ⟨r, rfl, -⟩
    exact dotless dot (List.prefix_append p r)
  rw [Federation.isBlockedText_iff h.isAddressChar]
  simp only [dotless (p := "127.".toList) (by decide), dotless (p := "169.254.".toList) (by decide),
    dotless (p := "10.".toList) (by decide), dotless (p := "192.168.".toList) (by decide),
    dotless (p := "0.".toList) (by decide), range (p := "172.".toList) (by decide),
    range (p := "100.".toList) (by decide), false_or, or_false, or_assoc]

/-- A segment whose text is a number from 224 to 239. -/
def ReadsMulticast (n : Nat) : Prop := (0x224 ≤ n ∧ n ≤ 0x229) ∨ (0x230 ≤ n ∧ n ≤ 0x239)

theorem hex_ne_nil : hex n ≠ [] := Nat.toDigits_ne_nil

/-- A text that begins with a segment does not begin with a colon. -/
theorem head_hex (small : n < 65536) : ¬ ∃ r, hex n ++ t = ':' :: r := by
  rintro ⟨r, same⟩
  obtain ⟨d, ds, text⟩ := List.exists_cons_of_ne_nil (hex_ne_nil (n := n))
  rw [text, List.cons_append] at same
  have colon : ':' ∈ hex n := by
    rw [text, ← (List.cons.inj same).1]
    exact List.mem_cons_self
  exact notMem_hex small (by decide) colon

/-- A text of segments is judged by the first one. -/
theorem isBlockedHost_hex (small : n < 65536) (text : IsSegmentText (hex n ++ t))
    (tail : t = [] ∨ t.head? = some ':') :
    isBlockedHost (hex n ++ t) = true ↔
      n = 0xfe80 ∨ BeginsLocal n ∨ (t = [] ∧ ReadsMulticast n) := by
  have colon {p : Text} : ¬ ':' :: p <+: hex n ++ t := by
    rintro ⟨r, same⟩
    exact head_hex small ⟨_, same.symm⟩
  have unmapped : "::ffff:".toList.isPrefixOf? ((hex n ++ t).map Char.toLower) = none := by
    rw [map_toLower text.isAddressChar, isPrefixOf?_eq_none_iff]
    exact colon
  have notLoopback : hex n ++ t ≠ "::1".toList := fun same => head_hex small ⟨_, same⟩
  have single : firstOctetIn 224 239 (hex n ++ t) = true ↔ t = [] ∧ ReadsMulticast n := by
    obtain rfl | marked := tail
    · rw [List.append_nil, firstOctetIn_hex small, ReadsMulticast]
      simp
    · obtain ⟨r, rfl⟩ := List.head?_eq_some_iff.mp marked
      rw [firstOctetIn_of_notDigit (c := ':') (text.notMem (by decide) (by decide))
        (text.notMem (by decide) (by decide)) (by simp) (by decide)]
      simp
  rw [isBlockedHost_eq, unmapped, Option.any_none, Bool.or_false, text.isBlockedText_iff,
    prefix_append_iff ':' (by decide) tail,
    prefix_append_iff ':' (by decide) tail,
    prefix_append_iff ':' (by decide) tail, hex_prefix_fe80 small, hex_prefix_fc_fd small, single]
  simp only [notLoopback, false_or]

theorem isSegmentText_joinSegments (small : ∀ n ∈ rest, n < 65536) :
    IsSegmentText (joinSegments rest) :=
  fun _ hc => mem_joinSegments small hc

theorem isBlockedHost_joinSegments (small : ∀ m ∈ n :: rest, m < 65536) :
    isBlockedHost (joinSegments (n :: rest)) = true ↔
      n = 0xfe80 ∨ BeginsLocal n ∨ (rest = [] ∧ ReadsMulticast n) := by
  have text := isSegmentText_joinSegments small
  cases rest with
  | nil =>
    have alone : joinSegments [n] = hex n ++ [] := (List.append_nil _).symm
    rw [alone] at text ⊢
    rw [isBlockedHost_hex (small n List.mem_cons_self) text (.inl rfl)]
    simp
  | cons m rest =>
    rw [joinSegments] at text ⊢
    rw [isBlockedHost_hex (small n List.mem_cons_self) text (.inr rfl)]
    simp

theorem isBlockedHost_compressed (small : ∀ m ∈ rest, m < 65536) :
    isBlockedHost (':' :: ':' :: joinSegments rest) = true ↔
      rest = [1] ∨ ∃ n more, rest = 0xffff :: n :: more ∧
        (n = 0xfe80 ∨ BeginsLocal n ∨ (more = [] ∧ ReadsMulticast n)) := by
  have text : IsSegmentText (':' :: ':' :: joinSegments rest) := by
    intro c hc
    simp only [List.mem_cons] at hc
    obtain colon | colon | later := hc
    · exact .inl colon
    · exact .inl colon
    · exact mem_joinSegments small later
  have direct : isBlockedText (':' :: ':' :: joinSegments rest) = true ↔ rest = [1] := by
    have loopback : ':' :: ':' :: joinSegments rest = "::1".toList ↔ joinSegments rest = ['1'] := by
      have chars : "::1".toList = [':', ':', '1'] := by decide
      simp [chars]
    have number : firstOctetIn 224 239 (':' :: ':' :: joinSegments rest) = false :=
      firstOctetIn_of_notDigit (c := ':') (text.notMem (by decide) (by decide))
        (text.notMem (by decide) (by decide)) List.mem_cons_self (by decide)
    have letter {p : Text} {c : Char} (other : c ≠ ':') :
        ¬ c :: p <+: ':' :: ':' :: joinSegments rest := by
      rw [List.cons_prefix_cons]
      exact fun same => other same.1
    have fe : ¬ "fe80".toList <+: ':' :: ':' :: joinSegments rest := letter (by decide)
    have fc : ¬ "fc".toList <+: ':' :: ':' :: joinSegments rest := letter (by decide)
    have fd : ¬ "fd".toList <+: ':' :: ':' :: joinSegments rest := letter (by decide)
    rw [text.isBlockedText_iff, loopback, number]
    simp only [fe, fc, fd, Bool.false_eq_true, or_false]
    constructor
    · intro one
      match rest with
      | [] => cases one
      | [n] => rw [(hex_eq_one (small n List.mem_cons_self)).mp one]
      | n :: m :: rest =>
        have colon : ':' ∈ ['1'] := by
          rw [← one, joinSegments]
          simp
        exact absurd colon (by decide)
    · rintro rfl
      rfl
  have mapped (u : Text) : "::ffff:".toList.isPrefixOf? (':' :: ':' :: joinSegments rest) = some u ↔
      ∃ n more, rest = 0xffff :: n :: more ∧ u = joinSegments (n :: more) := by
    have chars : "::ffff:".toList = ':' :: ':' :: ("ffff".toList ++ [':']) := by decide
    rw [isPrefixOf?_eq_some_iff, chars, List.cons_append, List.cons_append, List.cons.injEq,
      List.cons.injEq, List.append_assoc, List.singleton_append]
    simp only [true_and]
    constructor
    · intro same
      match rest with
      | [] => cases same
      | [n] =>
        have colon : ':' ∈ hex n := by
          rw [joinSegments] at same
          simp [same]
        exact absurd colon (notMem_hex (small n List.mem_cons_self) (by decide))
      | n :: m :: rest =>
        have bound := small n List.mem_cons_self
        rw [joinSegments] at same
        have begins : "ffff".toList ++ ':' :: u <+: hex n ++ ':' :: joinSegments (m :: rest) :=
          ⟨[], by rw [same, List.append_nil]⟩
        obtain ⟨first, -⟩ :=
            (marked_prefix_iff (by decide) (notMem_hex bound (by decide))).mp begins
        rw [← first] at same
        refine ⟨m, rest, ?_, (List.cons.inj (List.append_cancel_left same)).2.symm⟩
        rw [(hex_eq_ffff bound).mp first]
    · rintro ⟨n, more, rfl, rfl⟩
      rfl
  rw [isBlockedHost_eq, map_toLower text.isAddressChar, Bool.or_eq_true, direct, Option.any_eq_true]
  refine or_congr_right ?_
  simp only [mapped]
  constructor
  · rintro ⟨u, ⟨n, more, rfl, rfl⟩, blocked⟩
    refine ⟨n, more, rfl, (isBlockedHost_joinSegments ?_).mp blocked⟩
    exact fun m hm => small m (List.mem_cons_of_mem _ hm)
  · rintro ⟨n, more, rfl, judged⟩
    refine ⟨_, ⟨n, more, rfl, rfl⟩, (isBlockedHost_joinSegments ?_).mpr judged⟩
    exact fun m hm => small m (List.mem_cons_of_mem _ hm)

end Dotless

theorem Ipv4Addr.value_lt (x : Ipv4Addr) : x.value < 2 ^ 32 := by
  have := x.a.isLt
  have := x.b.isLt
  have := x.c.isLt
  have := x.d.isLt
  rw [Ipv4Addr.value]
  omega

namespace Ipv6Addr

variable {x : Ipv6Addr}

/-- The IPv6 addresses that the tests get wrong: link-local ones other than fe80::/16, those
whose first segment has less than four digits and begins with `fc` or `fd`, and those whose
text begins with `::ffff:` and goes on like a blocked one without being an IPv4 address. -/
def Misjudged (x : Ipv6Addr) : Prop :=
  x.toIpv4Mapped = none ∧
    ((∃ n rest, x.segments = n :: rest ∧
      ((0xfe81 ≤ n ∧ n ≤ 0xfebf) ∨ n = 0xfc ∨ n = 0xfd ∨ (0xfc0 ≤ n ∧ n ≤ 0xfdf))) ∨
    (x.zeroes.start = 0 ∧ 1 < x.zeroes.len ∧
      ∃ n rest, x.segments.drop x.zeroes.len = 0xffff :: n :: rest ∧
        (n = 0xfe80 ∨ BeginsLocal n ∨ (rest = [] ∧ ReadsMulticast n))))

theorem exists_segments (x : Ipv6Addr) : ∃ s₀ s₁ s₂ s₃ s₄ s₅ s₆ s₇,
    x.segments = [s₀, s₁, s₂, s₃, s₄, s₅, s₆, s₇] := by
  obtain ⟨segments, eight, -⟩ := x
  match segments, eight with
  | [s₀, s₁, s₂, s₃, s₄, s₅, s₆, s₇], _ => exact ⟨s₀, s₁, s₂, s₃, s₄, s₅, s₆, s₇, rfl⟩

/-- The first segment is the highest part of the value. -/
theorem value_split {n : Nat} {rest : List Nat} (segments : x.segments = n :: rest) :
    ∃ low < 2 ^ 112, x.value = n * 2 ^ 112 + low := by
  obtain ⟨s₀, s₁, s₂, s₃, s₄, s₅, s₆, s₇, eight⟩ := x.exists_segments
  have small := x.small
  rw [segments] at eight
  cases eight
  rw [segments] at small
  simp only [List.forall_mem_cons] at small
  refine ⟨x.value - n * 2 ^ 112, ?_, ?_⟩ <;>
  · rw [value, segments]
    simp only [List.foldl_cons, List.foldl_nil]
    omega

theorem linkLocal_iff {n : Nat} {rest : List Nat} (segments : x.segments = n :: rest) :
    InNet 128 (0xfe80 * 2 ^ 112) 10 x.value ↔ 0xfe80 ≤ n ∧ n ≤ 0xfebf := by
  obtain ⟨low, bound, same⟩ := value_split segments
  rw [InNet, same]
  omega

theorem uniqueLocal_iff {n : Nat} {rest : List Nat} (segments : x.segments = n :: rest) :
    InNet 128 (0xfc00 * 2 ^ 112) 7 x.value ↔ 0xfc00 ≤ n ∧ n ≤ 0xfdff := by
  obtain ⟨low, bound, same⟩ := value_split segments
  rw [InNet, same]
  omega

theorem value_eq_one_iff : x.value = 1 ↔ x.segments = [0, 0, 0, 0, 0, 0, 0, 1] := by
  obtain ⟨s₀, s₁, s₂, s₃, s₄, s₅, s₆, s₇, segments⟩ := x.exists_segments
  rw [value, segments]
  simp only [List.foldl_cons, List.foldl_nil, List.cons.injEq, and_true]
  omega

/-- Mapped addresses are those with the value of an IPv4 address after `ffff`. -/
theorem toIpv4Mapped_eq_some {y : Ipv4Addr} (h : x.toIpv4Mapped = some y) :
    x.value = 0xffff * 2 ^ 32 + y.value := by
  have small := x.small
  rw [toIpv4Mapped] at h
  split at h
  · rename_i ab cd segments
    cases h
    rw [segments] at small
    simp only [List.forall_mem_cons] at small
    rw [value, segments, Ipv4Addr.value]
    simp only [List.foldl_cons, List.foldl_nil, Fin.val_ofNat]
    omega
  · cases h

theorem exists_mapped {y : Ipv4Addr} (h : x.value = 0xffff * 2 ^ 32 + y.value) :
    ∃ z, x.toIpv4Mapped = some z := by
  obtain ⟨s₀, s₁, s₂, s₃, s₄, s₅, s₆, s₇, segments⟩ := x.exists_segments
  have small := x.small
  have bound := y.value_lt
  rw [segments] at small
  simp only [List.forall_mem_cons] at small
  have upper : s₀ = 0 ∧ s₁ = 0 ∧ s₂ = 0 ∧ s₃ = 0 ∧ s₄ = 0 ∧ s₅ = 0xffff := by
    rw [value, segments] at h
    simp only [List.foldl_cons, List.foldl_nil] at h
    omega
  obtain ⟨rfl, rfl, rfl, rfl, rfl, rfl⟩ := upper
  rw [toIpv4Mapped, segments]
  exact ⟨_, rfl⟩

/-- A run of zeros that starts at the front consists of zeros. -/
theorem longestZeros_front : ∀ b₀ b₁ b₂ b₃ b₄ b₅ b₆ b₇ : Bool,
    (longestZeros [b₀, b₁, b₂, b₃, b₄, b₅, b₆, b₇] 0 ⟨0, 0⟩ ⟨0, 0⟩).start = 0 →
    ([b₀, b₁, b₂, b₃, b₄, b₅, b₆, b₇].take
      (longestZeros [b₀, b₁, b₂, b₃, b₄, b₅, b₆, b₇] 0 ⟨0, 0⟩ ⟨0, 0⟩).len).all id = true := by
  decide

theorem take_zeroes (front : x.zeroes.start = 0) : ∀ n ∈ x.segments.take x.zeroes.len, n = 0 := by
  obtain ⟨s₀, s₁, s₂, s₃, s₄, s₅, s₆, s₇, segments⟩ := x.exists_segments
  have all := longestZeros_front (s₀ == 0) (s₁ == 0) (s₂ == 0) (s₃ == 0) (s₄ == 0) (s₅ == 0)
    (s₆ == 0) (s₇ == 0)
  have mask : [s₀ == 0, s₁ == 0, s₂ == 0, s₃ == 0, s₄ == 0, s₅ == 0, s₆ == 0, s₇ == 0] =
      x.segments.map (· == 0) := by rw [segments]; rfl
  rw [mask] at all
  have zeros := all front
  rw [← List.map_take, List.all_eq_true] at zeros
  intro n hn
  exact eq_of_beq (zeros _ (List.mem_map.mpr ⟨n, hn, rfl⟩))

/-- The two shapes of a text that is not that of a mapped address. -/
theorem text_of_not_mapped (unmapped : x.toIpv4Mapped = none) {n : Nat} {rest : List Nat}
    (segments : x.segments = n :: rest) :
    (¬ (x.zeroes.start = 0 ∧ 1 < x.zeroes.len) ∧ ∃ r, x.text = hex n ++ ':' :: r) ∨
      (x.zeroes.start = 0 ∧ 1 < x.zeroes.len ∧ n = 0 ∧
        x.text = ':' :: ':' :: joinSegments (x.segments.drop x.zeroes.len)) := by
  rw [text, unmapped]
  by_cases long : 1 < x.zeroes.len
  · simp only [gt_iff_lt, long, if_true, and_true, true_and]
    by_cases front : x.zeroes.start = 0
    · refine .inr ⟨front, ?_, ?_⟩
      · refine take_zeroes front n ?_
        obtain ⟨k, hk⟩ := Nat.exists_eq_add_of_lt long
        rw [segments, hk]
        exact List.mem_cons_self
      · rw [front, List.take_zero, Nat.zero_add]
        rfl
    · refine .inl ⟨front, ?_⟩
      obtain ⟨k, hk⟩ := Nat.exists_eq_succ_of_ne_zero front
      rw [segments, hk, List.take_succ_cons]
      obtain ⟨-, alone⟩ | ⟨r, more⟩ := joinSegments_cons n (rest.take k)
      · rw [alone]
        exact ⟨_, rfl⟩
      · rw [more, List.append_assoc]
        exact ⟨_, rfl⟩
  · simp only [gt_iff_lt, long, if_false, and_false, not_false_eq_true, true_and, false_and,
      or_false]
    rw [segments]
    obtain ⟨empty, -⟩ | more := joinSegments_cons n rest
    · have eight := x.eight
      rw [segments, empty] at eight
      cases eight
    · exact more

theorem firstOctetIn_colon {low high : Nat} {r : Text} :
    firstOctetIn low high (':' :: r) = false := by
  have first : (':' :: r).takeWhile (fun c => decide (c ≠ '.')) =
      ':' :: r.takeWhile (fun c => decide (c ≠ '.')) := List.takeWhile_cons_of_pos (by decide)
  rw [firstOctetIn, first, parseUnsigned, dropPlus, parseDigits, List.all_cons, if_neg]
  · rfl
  · rintro ⟨-, digits⟩
    cases digits
  · rintro ds same
    cases same

theorem isAddressChar_mapped (y : Ipv4Addr) :
    ∀ c ∈ "::ffff:".toList ++ y.text, isAddressChar c = true := by
  intro c hc
  obtain front | back := List.mem_append.mp hc
  · have all : ("::ffff:".toList.all isAddressChar) = true := by decide
    exact List.all_eq_true.mp all c front
  · exact Ipv4Addr.isAddressChar_text back

/-- After `::ffff:`, an IPv4 address is judged. -/
theorem isBlockedHost_mapped (y : Ipv4Addr) :
    isBlockedHost ("::ffff:".toList ++ y.text) = true ↔ y.Internal := by
  have plain := isAddressChar_mapped y
  have chars : "::ffff:".toList ++ y.text = ':' :: ':' :: 'f' :: ("fff:".toList ++ y.text) := rfl
  have first {c : Char} {p : Text} (other : c ≠ ':') : ¬ c :: p <+: "::ffff:".toList ++ y.text := by
    rw [chars, List.cons_prefix_cons]
    exact fun same => other same.1
  have range {c : Char} {p : Text} {f : Text → Bool} (other : c ≠ ':') :
      ¬ ∃ r, "::ffff:".toList ++ y.text = c :: p ++ r ∧ f r = true := by
    rintro ⟨r, same, -⟩
    exact first other ⟨r, same.symm⟩
  have direct : isBlockedText ("::ffff:".toList ++ y.text) = false := by
    rw [← Bool.not_eq_true, isBlockedText_iff plain]
    rintro (h | h | h | h | h | h | h | h | h | h | h | h)
    · rw [chars] at h
      cases h
    · exact first (by decide) h
    · exact first (by decide) h
    · exact first (by decide) h
    · exact first (by decide) h
    · exact first (by decide) h
    · exact first (by decide) h
    · exact range (by decide) h
    · exact first (by decide) h
    · exact range (by decide) h
    · rw [chars, firstOctetIn_colon] at h
      cases h
    · exact first (by decide) h
  have strip : "::ffff:".toList.isPrefixOf? ("::ffff:".toList ++ y.text) = some y.text :=
    isPrefixOf?_eq_some_iff.mpr rfl
  rw [isBlockedHost_eq, direct, map_toLower plain, strip, Bool.false_or, Option.any_some,
    Ipv4Addr.isBlockedHost_text]

/-- Mapped addresses are internal if the IPv4 address is. -/
theorem internal_of_mapped {y : Ipv4Addr} (h : x.toIpv4Mapped = some y) :
    x.Internal ↔ y.Internal := by
  have same := toIpv4Mapped_eq_some h
  have bound := y.value_lt
  constructor
  · rintro (one | net | net | ⟨z, internal, other⟩)
    · omega
    · rw [InNet] at net
      omega
    · rw [InNet] at net
      omega
    · have values : z.value = y.value := by omega
      rw [Ipv4Addr.Internal, values] at internal
      exact internal
  · intro internal
    exact .inr (.inr (.inr ⟨y, internal, same⟩))

theorem internal_of_not_mapped (unmapped : x.toIpv4Mapped = none) {n : Nat} {rest : List Nat}
    (segments : x.segments = n :: rest) :
    x.Internal ↔ x.segments = [0, 0, 0, 0, 0, 0, 0, 1] ∨ (0xfe80 ≤ n ∧ n ≤ 0xfebf) ∨
      (0xfc00 ≤ n ∧ n ≤ 0xfdff) := by
  have noMapped : ¬ ∃ y : Ipv4Addr, y.Internal ∧ x.value = 0xffff * 2 ^ 32 + y.value := by
    rintro ⟨y, -, same⟩
    obtain ⟨z, mapped⟩ := exists_mapped same
    rw [unmapped] at mapped
    cases mapped
  rw [Internal, linkLocal_iff segments, uniqueLocal_iff segments, value_eq_one_iff]
  simp only [noMapped, or_false]

theorem small_drop (k : Nat) : ∀ n ∈ x.segments.drop k, n < 65536 :=
  fun n hn => x.small n (List.mem_of_mem_drop hn)

theorem isSegmentText_text (unmapped : x.toIpv4Mapped = none) : IsSegmentText x.text := by
  rw [text, unmapped]
  simp only
  split
  · intro c hc
    obtain front | back := List.mem_append.mp hc
    · exact mem_joinSegments (fun n hn => x.small n (List.mem_of_mem_take hn)) front
    · simp only [List.mem_cons] at back
      obtain colon | colon | back := back
      · exact .inl colon
      · exact .inl colon
      · exact mem_joinSegments (small_drop _) back
  · exact isSegmentText_joinSegments x.small

/-- Where the text leaves out the first segments, only `::1` is left over as the last one. -/
theorem drop_zeroes_eq_one_iff (front : x.zeroes.start = 0) :
    x.segments.drop x.zeroes.len = [1] ↔ x.segments = [0, 0, 0, 0, 0, 0, 0, 1] := by
  constructor
  · intro last
    have zeros := List.eq_replicate_iff.mpr ⟨rfl, take_zeroes front⟩
    have seven : (x.segments.take x.zeroes.len).length = 7 := by
      have lengths := congrArg List.length (List.take_append_drop x.zeroes.len x.segments)
      rw [List.length_append, last, x.eight, List.length_singleton] at lengths
      omega
    rw [← List.take_append_drop x.zeroes.len x.segments, last, zeros, seven]
    rfl
  · intro segments
    have span : x.zeroes = ⟨0, 7⟩ := by
      rw [zeroes, segments]
      rfl
    rw [span, segments]
    rfl

/-- IPv6 addresses are judged right just if they are not of the misjudged kinds. -/
theorem isBlockedHost_iff_internal_iff :
    (isBlockedHost x.text = true ↔ x.Internal) ↔ ¬ x.Misjudged := by
  cases mapped : x.toIpv4Mapped with
  | some y =>
    have form : x.text = "::ffff:".toList ++ y.text := by rw [text, mapped]
    have right : ¬ x.Misjudged := by
      rintro ⟨none, -⟩
      rw [mapped] at none
      cases none
    rw [form, isBlockedHost_mapped, internal_of_mapped mapped]
    exact ⟨fun _ => right, fun _ => Iff.rfl⟩
  | none =>
    obtain ⟨n, s₁, s₂, s₃, s₄, s₅, s₆, s₇, segments⟩ := x.exists_segments
    have bound : n < 65536 := x.small n (by rw [segments]; exact List.mem_cons_self)
    have plain := isSegmentText_text mapped
    have first : (∃ m rest, x.segments = m :: rest ∧
        ((0xfe81 ≤ m ∧ m ≤ 0xfebf) ∨ m = 0xfc ∨ m = 0xfd ∨ (0xfc0 ≤ m ∧ m ≤ 0xfdf))) ↔
        (0xfe81 ≤ n ∧ n ≤ 0xfebf) ∨ n = 0xfc ∨ n = 0xfd ∨ (0xfc0 ≤ n ∧ n ≤ 0xfdf) := by
      constructor
      · rintro ⟨m, rest, same, judged⟩
        rw [segments] at same
        cases same
        exact judged
      · intro judged
        exact ⟨n, _, segments, judged⟩
    rw [Misjudged, first, internal_of_not_mapped mapped segments]
    obtain ⟨notFront, r, form⟩ | ⟨front, long, zero, form⟩ := text_of_not_mapped mapped segments
    · have other : x.segments ≠ [0, 0, 0, 0, 0, 0, 0, 1] := by
        intro segments
        have span : x.zeroes = ⟨0, 7⟩ := by
          rw [zeroes, segments]
          rfl
        rw [span] at notFront
        exact notFront ⟨rfl, by decide⟩
      rw [form] at plain ⊢
      rw [isBlockedHost_hex bound plain (.inr rfl), BeginsLocal]
      have second : ¬ (x.zeroes.start = 0 ∧ 1 < x.zeroes.len ∧
          ∃ n rest, x.segments.drop x.zeroes.len = 0xffff :: n :: rest ∧
            (n = 0xfe80 ∨ BeginsLocal n ∨ (rest = [] ∧ ReadsMulticast n))) :=
        fun h => notFront ⟨h.1, h.2.1⟩
      simp only [other, second, mapped, reduceCtorEq, false_and, false_or, or_false, true_and]
      omega
    · subst zero
      rw [form, isBlockedHost_compressed (small_drop _), drop_zeroes_eq_one_iff front]
      have exclusive : x.segments = [0, 0, 0, 0, 0, 0, 0, 1] →
          ¬ ∃ n more, x.segments.drop x.zeroes.len = 0xffff :: n :: more ∧
            (n = 0xfe80 ∨ BeginsLocal n ∨ (more = [] ∧ ReadsMulticast n)) := by
        rintro loopback ⟨n, more, same, -⟩
        rw [(drop_zeroes_eq_one_iff front).mpr loopback] at same
        cases same
      simp only [front, long, mapped, true_and]
      constructor
      · rintro same (low | misread)
        · omega
        · obtain loopback | net | net := same.mp (.inr misread)
          · exact exclusive loopback misread
          · omega
          · omega
      · intro right
        constructor
        · rintro (loopback | misread)
          · exact .inl loopback
          · exact absurd (.inr misread) right
        · rintro (loopback | net | net)
          · exact .inl loopback
          · omega
          · omega

end Ipv6Addr

end PgRipple.Federation
