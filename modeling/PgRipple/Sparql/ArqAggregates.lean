import PgRipple.Lib.Marked
import PgRipple.Lib.Utf8
import PgRipple.Sparql.Tokens

/-!
# ARQ aggregates

`preprocess_arq_aggregates` replaces `MEDIAN(` and `MODE(` by IRIs that the parser accepts. It
goes through the bytes of the query and looks at the byte before, the letters and the opening
parenthesis; it does not know where a literal, an IRI, a comment or a name begins and ends.

The bytes are those of a text, so what it does can be said of characters: it rewrites the text at
some positions. The positions where it should do so are those of the function keywords among
the tokens.
-/

namespace PgRipple.Sparql.Arq

open Dictionary (Text)
open Utf8 (bytes width isLead)
open Lexer (Token lex isBlank)

def median : Text := "median".toList
def mode : Text := "mode".toList
def medianIri : Text := "<urn:arq:median>".toList
def modeIri : Text := "<urn:arq:mode>".toList

/-- `u8::to_ascii_lowercase`. -/
def lowerByte (b : UInt8) : UInt8 := if 0x41 ≤ b ∧ b ≤ 0x5A then b + 0x20 else b

/-- A letter, a digit or an underscore. -/
def isNameByte (b : UInt8) : Bool :=
  (0x30 ≤ b && b ≤ 0x39) || (0x41 ≤ b && b ≤ 0x5A) || (0x61 ≤ b && b ≤ 0x7A) || b = 0x5F

def isBlankByte (b : UInt8) : Bool := b = 0x20 || b = 0x09 || b = 0x0A || b = 0x0D

/-- The byte before a keyword; `?`, `$` and `:` begin variables and local names. -/
def atBoundary (previous : Option UInt8) : Bool :=
  previous.all fun b => !isNameByte b && b ≠ 0x3F && b ≠ 0x24 && b ≠ 0x3A

/-- `try_arq_agg_keyword`, where the position is the beginning of `rest`. -/
def tryArqAggKeyword (rest kw : List UInt8) : Option Nat :=
  if rest.length < kw.length then none
  else if (rest.take kw.length).map lowerByte ≠ kw then none
  else if (rest.drop kw.length).head?.any isNameByte then none
  else
    let j := kw.length + ((rest.drop kw.length).takeWhile isBlankByte).length
    if (rest.drop j).head? = some 0x28 then some j else none

/-- `&src[i..i + len]`; `none` stands for the panic if this is no slice of a string. -/
def slice (rest : List UInt8) (len : Nat) : Option (List UInt8) :=
  if rest.head?.all isLead ∧ len ≤ rest.length ∧ (rest.drop len).head?.all isLead then
    some (rest.take len)
  else none

/-- The loop. The byte before the position is all that it sees of what it has passed. -/
def scan : (fuel : Nat) → (previous : Option UInt8) → (rest : List UInt8) → Option (List UInt8)
  | _, _, [] => some []
  | 0, _, _ :: _ => none
  | fuel + 1, previous, b :: rest =>
    let keyword : Option (Text × Nat) :=
      if atBoundary previous then
        match tryArqAggKeyword (b :: rest) (bytes median) with
        | some j => some (medianIri, j)
        | none => (tryArqAggKeyword (b :: rest) (bytes mode)).map fun j => (modeIri, j)
      else none
    match keyword with
    | some (iri, j) =>
      (scan fuel ((b :: rest).take j).getLast? ((b :: rest).drop j)).map (bytes iri ++ ·)
    | none =>
      (slice (b :: rest) (width b)).bind fun piece =>
        (scan fuel piece.getLast? ((b :: rest).drop (width b))).map (piece ++ ·)

/-- `preprocess_arq_aggregates`. -/
def preprocessArqAggregates (src : List UInt8) : Option (List UInt8) :=
  let lc := src.map lowerByte
  if ¬ bytes median <:+: lc ∧ ¬ bytes mode <:+: lc then some src
  else scan src.length none src

/-- A word `MEDIAN` or `MODE` before an opening parenthesis. -/
def isFunctionKeyword (t : Token) (later : List Token) : Bool :=
  t.kind = .word && (t.text.map Char.toLower = median || t.text.map Char.toLower = mode) &&
    (later.find? fun u => u.kind ≠ .blank && u.kind ≠ .comment).any fun u => u.text = ['(']

/-- A text begins with the keyword, and has a parenthesis after blanks. -/
def keywordAt (kw s : Text) : Option Nat :=
  let blanks := (s.drop kw.length).takeWhile isBlank
  if (s.take kw.length).map Char.toLower = kw ∧
      ((s.drop kw.length).dropWhile isBlank).head? = some '(' then
    some (kw.length + blanks.length)
  else none

/-- The IRI for the keyword at the beginning of a text, and the length of what it stands for: the
keyword, and the blanks if a parenthesis comes after them. -/
def replacement (s : Text) : Text × Nat :=
  match keywordAt median s with
  | some n => (medianIri, n)
  | none =>
    match keywordAt mode s with
    | some n => (modeIri, n)
    | none =>
      if (s.take median.length).map Char.toLower = median then (medianIri, median.length)
      else (modeIri, mode.length)

/-- The characters of the tokens; the first one of a function keyword is marked. -/
def markKeywords : List Token → List (Char × Bool)
  | [] => []
  | t :: later =>
    (match t.text with
      | [] => []
      | c :: cs => (c, isFunctionKeyword t later) :: cs.map fun c => (c, false)) ++
    markKeywords later

/-- The text with exactly its function keywords replaced. -/
def rewritten (s : Text) : Text := Marked.rewrite replacement 0 (markKeywords (lex s))

/-- The query is preprocessed without a panic, all tokens but the function keywords are as they
were, and preprocessing the result again changes nothing. -/
def MeaningPreserving (s : Text) : Prop :=
  preprocessArqAggregates (bytes s) = some (bytes (rewritten s)) ∧
    preprocessArqAggregates (bytes (rewritten s)) = some (bytes (rewritten s))

/-- The character before a keyword. -/
def boundary (previous : Option Char) : Bool :=
  previous.all fun c => !c.isAlphanum && c ∉ ['_', '?', '$', ':']

/-- The scanner takes this position for that of a keyword. -/
def hit (previous : Option Char) (s : Text) : Bool :=
  boundary previous && ((keywordAt median s).isSome || (keywordAt mode s).isSome)

/-- The characters, marked where the scanner rewrites. -/
def markHits : (previous : Option Char) → Text → List (Char × Bool)
  | _, [] => []
  | previous, c :: s => (c, hit previous (c :: s)) :: markHits (some c) s

section Bytes

variable {s t kw : Text} {c : Char} {previous : Option Char} {j : Nat}

/-- A statement about ASCII characters holds if it holds of 128 numbers. -/
theorem forall_ascii {P : Char → Prop} (h : ∀ n : Fin 128, P (Char.ofNat n)) (c : Char)
    (ascii : c.toNat < 128) : P c := by
  have known := h ⟨c.toNat, ascii⟩
  rwa [Char.ofNat_toNat] at known

theorem ascii_of_isAlphanum (h : c.isAlphanum = true) : c.toNat < 128 := by
  have small : c.val ≤ 122 := by
    obtain (upper | lower) | digit := Dictionary.isAlphanum_iff.mp h
    · exact UInt32.le_trans upper.2 (by decide)
    · exact lower.2
    · exact UInt32.le_trans digit.2 (by decide)
  exact Nat.lt_of_le_of_lt (UInt32.le_iff_toNat_le.mp small) (by decide)

/-- The tests on bytes, and those on the character that an ASCII byte stands for. -/
structure Agrees (c : Char) : Prop where
  name : isNameByte c.toUInt8 = (c.isAlphanum || c = '_')
  blank : isBlankByte c.toUInt8 = isBlank c
  boundary : atBoundary (some c.toUInt8) = boundary (some c)
  lower : lowerByte c.toUInt8 = c.toLower.toUInt8
  back : Utf8.ofByte c.toUInt8 = c
  small : c.toUInt8 < 0x80
  parenthesis : c.toUInt8 = 0x28 ↔ c = '('
  lead : isLead c.toUInt8 = true
  width : width c.toUInt8 = 1

theorem agrees_of_ascii : ∀ c : Char, c.toNat < 128 → Agrees c := by
  have table : ∀ c : Char, c.toNat < 128 →
      (isNameByte c.toUInt8 = (c.isAlphanum || c = '_') ∧ isBlankByte c.toUInt8 = isBlank c ∧
        atBoundary (some c.toUInt8) = boundary (some c)) ∧
      (lowerByte c.toUInt8 = c.toLower.toUInt8 ∧ Utf8.ofByte c.toUInt8 = c ∧
        c.toUInt8 < 0x80) ∧
      (c.toUInt8 = 0x28 ↔ c = '(') ∧ isLead c.toUInt8 = true ∧ width c.toUInt8 = 1 :=
    forall_ascii (by decide)
  intro c ascii
  obtain ⟨⟨name, blank, boundary⟩, ⟨lower, back, small⟩, parenthesis, lead, width⟩ := table c ascii
  exact ⟨name, blank, boundary, lower, back, small, parenthesis, lead, width⟩

/-- What the tests say of a byte of a longer character. -/
theorem foreign_byte : ∀ b : UInt8, 0x80 ≤ b →
    isNameByte b = false ∧ isBlankByte b = false ∧ atBoundary (some b) = true :=
  Utf8.forall_byte (by decide +kernel)

theorem lowerByte_small : ∀ b : UInt8, lowerByte b < 0x80 →
    b < 0x80 ∧ (Utf8.ofByte b).toLower = Utf8.ofByte (lowerByte b) :=
  Utf8.forall_byte (by decide +kernel)

theorem tests_name : Utf8.Tests isNameByte fun c => c.isAlphanum || c = '_' where
  ascii c low := (agrees_of_ascii c low).name
  byte b high := (foreign_byte b high).1
  char c high := by
    rw [Bool.or_eq_false_iff, decide_eq_false_iff_not]
    refine ⟨Bool.eq_false_iff.mpr fun alphanum => ?_, ?_⟩
    · exact absurd (ascii_of_isAlphanum alphanum) (Nat.not_lt.mpr high)
    · rintro rfl
      exact absurd high (by decide)

theorem tests_blank : Utf8.Tests isBlankByte isBlank where
  ascii c low := (agrees_of_ascii c low).blank
  byte b high := (foreign_byte b high).2.1
  char c high := by
    simp only [isBlank, Bool.or_eq_false_iff, decide_eq_false_iff_not]
    refine ⟨⟨⟨?_, ?_⟩, ?_⟩, ?_⟩
    all_goals
      rintro rfl
      exact absurd high (by decide)

/-- The byte before says what the character before says. -/
theorem atBoundary_eq (previous : Option Char) :
    atBoundary (previous.bind fun c => (String.utf8EncodeChar c).getLast?) = boundary previous := by
  cases previous with
  | none => rfl
  | some c =>
    obtain ⟨low, encoded⟩ | ⟨high, lead, rest, encoded, -, -, some', tail⟩ := Utf8.encode_cases c
    · rw [Option.bind_some, encoded]
      exact (agrees_of_ascii c low).boundary
    · obtain ⟨front, last, rfl⟩ := rest.eq_nil_or_concat.resolve_left some'
      have foreign : boundary (some c) = true := by
        simp only [boundary, Option.all_some, Bool.and_eq_true, Bool.not_eq_true',
          decide_eq_true_eq]
        refine ⟨Bool.eq_false_iff.mpr fun alphanum => ?_, fun listed => ?_⟩
        · exact absurd (ascii_of_isAlphanum alphanum) (Nat.not_lt.mpr high)
        · have small : ∀ d ∈ ['_', '?', '$', ':'], d.toNat < 128 := by simp
          exact absurd (small c listed) (Nat.not_lt.mpr high)
      rw [foreign, Option.bind_some, encoded, List.concat_eq_append, ← List.cons_append,
        List.getLast?_concat]
      exact (foreign_byte last (tail last (by simp))).2.2

theorem toLower_wide (high : 128 ≤ c.toNat) : c.toLower = c := by
  unfold Char.toLower
  refine dif_neg ?_
  rintro ⟨-, upper⟩
  have small : c.toNat ≤ 90 := UInt32.le_iff_toNat_le.mp upper
  omega

/-- Letters that are those of an ASCII word are ASCII. -/
theorem ascii_of_lower (ascii : ∀ c ∈ kw, c.toNat < 128) (same : t.map Char.toLower = kw) :
    ∀ c ∈ t, c.toNat < 128 := by
  intro c hc
  by_contra wide
  have high : 128 ≤ c.toNat := Nat.not_lt.mp wide
  have listed : c.toLower ∈ kw := same ▸ List.mem_map_of_mem hc
  rw [toLower_wide high] at listed
  exact wide (ascii c listed)

/-- The bytes begin with a word if and only if the text does. -/
theorem begins_iff (ascii : ∀ c ∈ kw, c.toNat < 128) :
    (¬ (bytes s).length < (bytes kw).length ∧
        ((bytes s).take (bytes kw).length).map lowerByte = bytes kw ↔
      (s.take kw.length).map Char.toLower = kw) ∧
    ((s.take kw.length).map Char.toLower = kw →
      (bytes s).drop (bytes kw).length = bytes (s.drop kw.length)) := by
  have codes := Utf8.bytes_ascii ascii
  have len : (bytes kw).length = kw.length := by rw [codes, List.length_map]
  have split (letters : (s.take kw.length).map Char.toLower = kw) :
      (s.take kw.length).length = kw.length ∧
        bytes s = (s.take kw.length).map Char.toUInt8 ++ bytes (s.drop kw.length) := by
    refine ⟨by rw [← List.length_map Char.toLower, letters], ?_⟩
    rw [← Utf8.bytes_ascii (ascii_of_lower ascii letters), ← Utf8.bytes_append,
      List.take_append_drop]
  rw [len]
  refine ⟨⟨?_, ?_⟩, ?_⟩
  · rintro ⟨-, letters⟩
    have low : ∀ b ∈ (bytes s).take kw.length, lowerByte b < 0x80 := by
      intro b hb
      have listed : lowerByte b ∈ bytes kw := letters ▸ List.mem_map_of_mem hb
      rw [codes, List.mem_map] at listed
      obtain ⟨c, hc, same⟩ := listed
      exact same ▸ (agrees_of_ascii c (ascii c hc)).small
    have small (b : UInt8) (hb : b ∈ (bytes s).take kw.length) : b < 0x80 :=
      (lowerByte_small b (low b hb)).1
    obtain ⟨t, same, -⟩ := Utf8.eq_append_of_bytes (List.take_append_drop kw.length _).symm small
    have length : ((bytes s).take kw.length).length = kw.length := by
      rw [← List.length_map lowerByte, letters, len]
    have front : s.take kw.length = ((bytes s).take kw.length).map Utf8.ofByte := by
      conv_lhs => rw [same]
      exact List.take_left' (by rw [List.length_map, length])
    have lowered (b : UInt8) (hb : b ∈ (bytes s).take kw.length) :
        (Utf8.ofByte b).toLower = Utf8.ofByte (lowerByte b) := (lowerByte_small b (low b hb)).2
    calc (s.take kw.length).map Char.toLower
      _ = ((bytes s).take kw.length).map fun b => (Utf8.ofByte b).toLower := by
        rw [front, List.map_map]
        rfl
      _ = ((bytes s).take kw.length).map fun b => Utf8.ofByte (lowerByte b) :=
        List.map_congr_left lowered
      _ = (kw.map Char.toUInt8).map Utf8.ofByte := by
        rw [← codes, ← letters, List.map_map]
        rfl
      _ = kw := by
        rw [List.map_map]
        exact (List.map_congr_left fun c hc => (agrees_of_ascii c (ascii c hc)).back).trans
          (List.map_id kw)
  · intro letters
    obtain ⟨length, whole⟩ := split letters
    have front : (bytes s).take kw.length = (s.take kw.length).map Char.toUInt8 := by
      rw [whole]
      exact List.take_left' (by rw [List.length_map, length])
    refine ⟨?_, ?_⟩
    · rw [whole, List.length_append, List.length_map, length]
      omega
    · rw [front, codes, List.map_map]
      conv_rhs => rw [← letters, List.map_map]
      exact List.map_congr_left fun c hc =>
        (agrees_of_ascii c (ascii_of_lower ascii letters c hc)).lower
  · intro letters
    obtain ⟨length, whole⟩ := split letters
    rw [whole]
    exact List.drop_left' (by rw [List.length_map, length])

/-- The bytes begin with a parenthesis if and only if the text does. -/
theorem head_parenthesis (s : Text) : (bytes s).head? = some 0x28 ↔ s.head? = some '(' := by
  cases s with
  | nil => simp
  | cons c s =>
    obtain ⟨low, encoded⟩ | ⟨high, lead, rest, encoded, large, -⟩ := Utf8.encode_cases c
    · simpa [encoded] using (agrees_of_ascii c low).parenthesis
    · have other : lead ≠ 0x28 := by
        rintro rfl
        exact absurd large (by decide)
      have foreign : c ≠ '(' := by
        rintro rfl
        exact absurd high (by decide)
      simp [encoded, other, foreign]

theorem length_takeWhile_blank (s : Text) :
    ((bytes s).takeWhile isBlankByte).length = (s.takeWhile isBlank).length := by
  rw [tests_blank.takeWhile, Utf8.bytes_ascii, List.length_map]
  intro c hc
  by_contra wide
  have blank := List.mem_takeWhile_imp hc
  rw [tests_blank.char c (Nat.not_lt.mp wide)] at blank
  cases blank

theorem drop_length_takeWhile {α : Type} (p : α → Bool) (l : List α) :
    l.drop (l.takeWhile p).length = l.dropWhile p := by
  have cut : (l.takeWhile p ++ l.dropWhile p).drop (l.takeWhile p).length = l.dropWhile p :=
    List.drop_left
  rwa [List.takeWhile_append_dropWhile] at cut

/-- The scanner finds a keyword in the bytes where there is one in the text. -/
theorem tryArqAggKeyword_eq (ascii : ∀ c ∈ kw, c.toNat < 128) (s : Text) :
    tryArqAggKeyword (bytes s) (bytes kw) = keywordAt kw s := by
  obtain ⟨begins, after⟩ := @begins_iff s kw ascii
  have len : (bytes kw).length = kw.length := by rw [Utf8.bytes_ascii ascii, List.length_map]
  by_cases letters : (s.take kw.length).map Char.toLower = kw
  · obtain ⟨long, same⟩ := begins.mpr letters
    have rest := after letters
    have dropped : (bytes s).drop ((bytes kw).length +
          ((bytes (s.drop kw.length)).takeWhile isBlankByte).length) =
        bytes ((s.drop kw.length).dropWhile isBlank) := by
      rw [← List.drop_drop, rest, drop_length_takeWhile, tests_blank.dropWhile]
    rw [tryArqAggKeyword, if_neg long, if_neg (not_not.mpr same), rest, tests_name.head]
    dsimp only
    rw [dropped, length_takeWhile_blank, len, keywordAt]
    by_cases paren : ((s.drop kw.length).dropWhile isBlank).head? = some '('
    · -- a blank or the parenthesis is no part of a name
      have unnamed : ¬ ((s.drop kw.length).head?.any fun c => c.isAlphanum || c = '_') = true := by
        cases next : s.drop kw.length with
        | nil => simp
        | cons c t =>
          rw [next] at paren
          rw [List.head?_cons, Option.any_some]
          by_cases blank : isBlank c = true
          · simp only [isBlank, Bool.or_eq_true, decide_eq_true_eq] at blank
            obtain ((rfl | rfl) | rfl) | rfl := blank
            all_goals decide
          · rw [List.dropWhile_cons_of_neg blank, List.head?_cons, Option.some.injEq] at paren
            rw [paren]
            decide
      rw [if_neg unnamed, if_pos ((head_parenthesis _).mpr paren), if_pos ⟨letters, paren⟩]
    · rw [if_neg (mt (head_parenthesis _).mp paren)]
      simp only [paren, and_false, if_false, ite_self]
  · rw [keywordAt, if_neg fun both => letters both.1, tryArqAggKeyword]
    split_ifs with short other
    · rfl
    · rfl
    all_goals exact absurd (begins.mp ⟨short, not_not.mp other⟩) letters

end Bytes

section Scan

variable {s t kw : Text} {c : Char} {previous : Option Char} {n : Nat}

theorem ascii_median : ∀ c ∈ median, c.toNat < 128 := by simp [median]

theorem ascii_mode : ∀ c ∈ mode, c.toNat < 128 := by simp [mode]

theorem tail_median : ∀ d ∈ "edian".toList, d ≠ 'm' ∧ d ≠ '<' := by simp

theorem tail_mode : ∀ d ∈ "ode".toList, d ≠ 'm' ∧ d ≠ '<' := by simp

/-- A keyword, blanks and a parenthesis. -/
theorem keywordAt_eq_some_iff : keywordAt kw s = some n ↔
    ∃ word blanks after, s = word ++ (blanks ++ '(' :: after) ∧ word.map Char.toLower = kw ∧
      (∀ b ∈ blanks, isBlank b = true) ∧ n = word.length + blanks.length := by
  have solid : isBlank '(' = false := by decide
  constructor
  · intro found
    unfold keywordAt at found
    split at found
    · rename_i both
      obtain ⟨letters, paren⟩ := both
      obtain ⟨after, rest⟩ := List.head?_eq_some_iff.mp paren
      refine ⟨s.take kw.length, (s.drop kw.length).takeWhile isBlank, after, ?_, letters, ?_, ?_⟩
      · rw [← rest, List.takeWhile_append_dropWhile, List.take_append_drop]
      · exact fun b hb => List.mem_takeWhile_imp hb
      · have length := congrArg List.length letters
        rw [List.length_map] at length
        rw [← Option.some.inj found, length]
    · cases found
  · rintro ⟨word, blanks, after, rfl, rfl, blank, rfl⟩
    have front : (word ++ (blanks ++ '(' :: after)).take (word.map Char.toLower).length = word :=
      List.take_left' (List.length_map _).symm
    have rest : (word ++ (blanks ++ '(' :: after)).drop (word.map Char.toLower).length =
        blanks ++ '(' :: after := List.drop_left' (List.length_map _).symm
    have all : (blanks ++ '(' :: after).takeWhile isBlank = blanks := by
      rw [List.takeWhile_append_of_pos blank, List.takeWhile_cons_of_neg (by simp [solid]),
        List.append_nil]
    have paren : (blanks ++ '(' :: after).dropWhile isBlank = '(' :: after := by
      rw [List.dropWhile_append_of_pos blank, List.dropWhile_cons_of_neg (by simp [solid])]
    rw [keywordAt, front, rest, paren, if_pos ⟨rfl, rfl⟩, all, List.length_map]

/-- The keyword that is found at the beginning of a text, if there is one. -/
def found (s : Text) : Option (Text × Nat) :=
  match keywordAt median s with
  | some n => some (medianIri, n)
  | none => (keywordAt mode s).map fun n => (modeIri, n)

theorem hit_eq (previous : Option Char) (s : Text) :
    hit previous s = (boundary previous && (found s).isSome) := by
  unfold hit found
  cases keywordAt median s with
  | some n => rfl
  | none => simp

theorem replacement_of_found {r : Text × Nat} (h : found s = some r) : replacement s = r := by
  unfold found at h
  unfold replacement
  cases hm : keywordAt median s with
  | some n =>
    rw [hm] at h
    exact Option.some.inj h
  | none =>
    rw [hm] at h
    obtain ⟨n, hn, rfl⟩ := Option.map_eq_some_iff.mp h
    rw [hn]

/-- A keyword with blanks after it, and a parenthesis. -/
structure Reads (s : Text) (n : Nat) (c : Char) (inside after : Text) : Prop where
  eq : s = c :: (inside ++ '(' :: after)
  first : c.toLower = 'm'
  later : ∀ d ∈ inside, d.toLower ≠ 'm'
  plain : '<' ∉ c :: inside
  ascii : ∀ d ∈ c :: inside, d.toNat < 128
  length : n = inside.length + 1

theorem exists_reads {tail : Text}
    (plain : ∀ d ∈ tail, d ≠ 'm' ∧ d ≠ '<') (ascii : ∀ d ∈ 'm' :: tail, d.toNat < 128)
    (h : keywordAt ('m' :: tail) s = some n) : ∃ c inside after, Reads s n c inside after := by
  obtain ⟨word, blanks, after, rfl, letters, blank, rfl⟩ := keywordAt_eq_some_iff.mp h
  cases word with
  | nil => cases letters
  | cons c word =>
    obtain ⟨first, letters⟩ := List.cons.inj letters
    have inside : ∀ d ∈ word, d.toLower ≠ 'm' ∧ d ≠ '<' := by
      intro d hd
      have listed : d.toLower ∈ tail := letters ▸ List.mem_map_of_mem hd
      refine ⟨(plain _ listed).1, ?_⟩
      rintro rfl
      exact (plain _ listed).2 rfl
    have between : ∀ d ∈ blanks, d.toLower ≠ 'm' ∧ d ≠ '<' ∧ d.toNat < 128 := by
      intro d hd
      have blank := blank d hd
      simp only [isBlank, Bool.or_eq_true, decide_eq_true_eq] at blank
      obtain ((rfl | rfl) | rfl) | rfl := blank
      all_goals decide
    refine ⟨c, word ++ blanks, after, by simp, first, ?_, ?_, ?_, ?_⟩
    · intro d hd
      exact (List.mem_append.mp hd).elim (fun hd => (inside d hd).1) fun hd => (between d hd).1
    · intro listed
      obtain rfl | listed := List.mem_cons.mp listed
      · exact absurd first (by decide)
      · obtain listed | listed := List.mem_append.mp listed
        · exact (inside _ listed).2 rfl
        · exact (between _ listed).2.1 rfl
    · intro d hd
      rw [← List.cons_append] at hd
      obtain hd | hd := List.mem_append.mp hd
      · refine ascii_of_lower ascii ?_ d hd
        rw [List.map_cons, first, letters]
      · exact (between d hd).2.2
    · rw [List.length_cons, List.length_append]
      omega

/-- What is found begins with an `m`, and has no other one before the parenthesis. -/
theorem reads_of_found {r : Text × Nat} (h : found s = some r) :
    (r.1 = medianIri ∨ r.1 = modeIri) ∧ ∃ c inside after, Reads s r.2 c inside after := by
  unfold found at h
  cases hm : keywordAt median s with
  | some n =>
    rw [hm] at h
    cases h
    exact ⟨.inl rfl, exists_reads tail_median ascii_median hm⟩
  | none =>
    rw [hm] at h
    obtain ⟨n, hn, rfl⟩ := Option.map_eq_some_iff.mp h
    exact ⟨.inr rfl, exists_reads tail_mode ascii_mode hn⟩

/-- What the scanner makes of a text after a character. -/
def out (previous : Option Char) (s : Text) : Text :=
  Marked.rewrite replacement 0 (markHits previous s)

theorem text_markHits (previous : Option Char) (s : Text) :
    Marked.text (markHits previous s) = s := by
  induction s generalizing previous with
  | nil => rfl
  | cons c s ih => rw [markHits, Marked.text_cons, ih]

theorem rewrite_skip (k : Nat) (previous : Option Char) (s : Text) :
    Marked.rewrite replacement k (markHits previous s) =
      out ((s.take k).getLast?.or previous) (s.drop k) := by
  induction k generalizing previous s with
  | zero => rfl
  | succ k ih =>
    cases s with
    | nil => rfl
    | cons c s =>
      have last : ((c :: s).take (k + 1)).getLast?.or previous =
          (s.take k).getLast?.or (some c) := by
        rw [List.take_succ_cons, List.getLast?_cons]
        cases (s.take k).getLast?
        all_goals rfl
      rw [markHits, Marked.rewrite, ih, last, List.drop_succ_cons]

theorem out_miss (miss : hit previous (c :: s) = false) :
    out previous (c :: s) = c :: out (some c) s := by
  rw [out, markHits, miss, Marked.rewrite, out]

theorem out_hit {r : Text × Nat} (here : boundary previous = true) (h : found s = some r) :
    out previous s = r.1 ++ out (s.take r.2).getLast? (s.drop r.2) := by
  obtain ⟨-, c, inside, after, reads⟩ := reads_of_found h
  obtain ⟨iri, n⟩ := r
  obtain ⟨eq, -, -, -, -, length⟩ := reads
  dsimp only at length
  subst length
  have marked : hit previous s = true := by rw [hit_eq, here, h]; rfl
  rw [eq] at marked h ⊢
  rw [out, markHits, marked, Marked.rewrite, text_markHits, replacement_of_found h]
  dsimp only
  rw [Nat.add_sub_cancel, rewrite_skip, List.take_succ_cons, List.drop_succ_cons,
    List.getLast?_cons]
  cases ((inside ++ '(' :: after).take inside.length).getLast?
  all_goals rfl

/-- The last byte of the character before. -/
def lastByte (previous : Option Char) : Option UInt8 :=
  previous.bind fun c => (String.utf8EncodeChar c).getLast?

theorem scan_keyword (previous : Option Char) (s : Text) :
    (if atBoundary (lastByte previous) then
      match tryArqAggKeyword (bytes s) (bytes median) with
      | some j => some (medianIri, j)
      | none => (tryArqAggKeyword (bytes s) (bytes mode)).map fun j => (modeIri, j)
    else none) = if boundary previous then found s else none := by
  rw [lastByte, atBoundary_eq, tryArqAggKeyword_eq ascii_median, tryArqAggKeyword_eq ascii_mode]
  rfl

theorem isLead_bytes (s : Text) : (bytes s).head?.all isLead = true := by
  cases s with
  | nil => rfl
  | cons c s =>
    obtain ⟨low, encoded⟩ | ⟨-, lead, rest, encoded, large, -⟩ := Utf8.encode_cases c
    · simp [encoded, (agrees_of_ascii c low).lead]
    · simp [encoded, isLead, large]

theorem slice_char (c : Char) (s : Text) : ∃ lead rest, bytes (c :: s) = lead :: rest ∧
    slice (lead :: rest) (width lead) = some (String.utf8EncodeChar c) ∧
    (lead :: rest).drop (width lead) = bytes s := by
  have cut (lead : UInt8) (more : List UInt8) (encoded : String.utf8EncodeChar c = lead :: more)
      (len : width lead = more.length + 1) :
      slice (lead :: (more ++ bytes s)) (width lead) = some (String.utf8EncodeChar c) ∧
        (lead :: (more ++ bytes s)).drop (width lead) = bytes s := by
    have whole : lead :: (more ++ bytes s) = String.utf8EncodeChar c ++ bytes s := by
      rw [encoded]
      rfl
    have length : width lead = (String.utf8EncodeChar c).length := by rw [encoded, len]; rfl
    have dropped : (lead :: (more ++ bytes s)).drop (width lead) = bytes s := by
      rw [whole, length, List.drop_left]
    refine ⟨?_, dropped⟩
    have begins := isLead_bytes (c :: s)
    rw [Utf8.bytes_cons, ← whole] at begins
    have fits : width lead ≤ (lead :: (more ++ bytes s)).length := by
      rw [List.length_cons, List.length_append, len]
      omega
    rw [slice, dropped, if_pos ⟨begins, fits, isLead_bytes s⟩, whole, length, List.take_left]
  obtain ⟨low, encoded⟩ | ⟨-, lead, more, encoded, -, len, -⟩ := Utf8.encode_cases c
  · exact ⟨c.toUInt8, bytes s, by rw [Utf8.bytes_cons, encoded]; rfl,
      cut c.toUInt8 [] encoded (agrees_of_ascii c low).width⟩
  · exact ⟨lead, more ++ bytes s, by rw [Utf8.bytes_cons, encoded]; rfl, cut lead more encoded len⟩

/-- The scanner never cuts a character, and its result is the text that `out` gives. -/
theorem scan_eq (fuel : Nat) (previous : Option Char) (s : Text)
    (enough : (bytes s).length ≤ fuel) :
    scan fuel (lastByte previous) (bytes s) = some (bytes (out previous s)) := by
  induction fuel generalizing previous s with
  | zero =>
    have none' : bytes s = bytes [] := List.length_eq_zero_iff.mp (Nat.le_zero.mp enough)
    rw [Utf8.bytes_injective none']
    rfl
  | succ fuel ih =>
    cases s with
    | nil => rfl
    | cons c s =>
      obtain ⟨lead, rest, whole, piece, after⟩ := slice_char c s
      have test := scan_keyword previous (c :: s)
      rw [whole] at test enough ⊢
      have shorter (t : Text) (front : Text) (some' : front ≠ [])
          (split : c :: s = front ++ t) : (bytes t).length ≤ fuel := by
        rw [← whole, split, Utf8.bytes_append, List.length_append] at enough
        have := List.length_pos_iff.mpr (fun none' : bytes front = [] =>
          some' (Utf8.bytes_injective none'))
        omega
      have copied (miss : hit previous (c :: s) = false) :
          ((slice (lead :: rest) (width lead)).bind fun piece =>
            (scan fuel piece.getLast? ((lead :: rest).drop (width lead))).map (piece ++ ·)) =
          some (bytes (out previous (c :: s))) := by
        rw [piece, after, Option.bind_some]
        have later := ih (some c) s (shorter s [c] (List.cons_ne_nil c []) rfl)
        rw [lastByte, Option.bind_some] at later
        rw [later, Option.map_some, out_miss miss]
        rfl
      rw [scan, test]
      by_cases here : boundary previous = true
      · rw [if_pos here]
        cases keyword : found (c :: s) with
        | some r =>
          obtain ⟨-, d, inside, behind, reads⟩ := reads_of_found keyword
          have length : (d :: inside).length = r.2 := reads.length.symm
          have codes := Utf8.bytes_ascii reads.ascii
          have split : c :: s = (d :: inside) ++ '(' :: behind := reads.eq
          have front : (lead :: rest).take r.2 = bytes (d :: inside) := by
            rw [← whole, split, Utf8.bytes_append]
            exact List.take_left' (by rw [codes, List.length_map, length])
          have back : (lead :: rest).drop r.2 = bytes ('(' :: behind) := by
            rw [← whole, split, Utf8.bytes_append]
            exact List.drop_left' (by rw [codes, List.length_map, length])
          have later := ih (d :: inside).getLast? ('(' :: behind)
            (shorter _ _ (List.cons_ne_nil d inside) split)
          rw [lastByte, ← Utf8.getLast?_bytes] at later
          dsimp only
          rw [front, back, later, Option.map_some, out_hit here keyword, split,
            List.take_left' length, List.drop_left' length, Utf8.bytes_append]
        | none =>
          refine copied ?_
          rw [hit_eq, keyword, Option.isSome_none, Bool.and_false]
      · rw [if_neg here]
        refine copied ?_
        rw [hit_eq, Bool.eq_false_iff.mpr here, Bool.false_and]

theorem word_in_bytes (ascii : ∀ c ∈ kw, c.toNat < 128) (h : keywordAt kw s = some n) :
    bytes kw <:+: (bytes s).map lowerByte := by
  have letters : (s.take kw.length).map Char.toLower = kw := by
    unfold keywordAt at h
    split at h
    · rename_i both
      exact both.1
    · cases h
  obtain ⟨-, front⟩ := (begins_iff ascii).1.mpr letters
  generalize (bytes kw).length = k at front
  rw [← front, List.map_take]
  exact (List.take_prefix k _).isInfix

/-- The early return changes nothing. -/
theorem out_of_absent (noMedian : ¬ bytes median <:+: (bytes s).map lowerByte)
    (noMode : ¬ bytes mode <:+: (bytes s).map lowerByte) : out previous s = s := by
  induction s generalizing previous with
  | nil => rfl
  | cons c s ih =>
    have shorter {l : List UInt8} (h : l <:+: (bytes s).map lowerByte) :
        l <:+: (bytes (c :: s)).map lowerByte := by
      apply h.trans
      rw [Utf8.bytes_cons, List.map_append]
      exact (List.suffix_append _ _).isInfix
    have miss : hit previous (c :: s) = false := by
      have first : keywordAt median (c :: s) = none :=
        Option.eq_none_iff_forall_ne_some.mpr fun n h => noMedian (word_in_bytes ascii_median h)
      have second : keywordAt mode (c :: s) = none :=
        Option.eq_none_iff_forall_ne_some.mpr fun n h => noMode (word_in_bytes ascii_mode h)
      rw [hit, first, second, Option.isSome_none, Bool.or_self, Bool.and_false]
    rw [out_miss miss, ih (mt shorter noMedian) (mt shorter noMode)]

/-- The preprocessing never panics, and `out` says what it gives. -/
theorem preprocessArqAggregates_eq (s : Text) :
    preprocessArqAggregates (bytes s) = some (bytes (out none s)) := by
  unfold preprocessArqAggregates
  dsimp only
  split_ifs with absent
  · rw [out_of_absent absent.1 absent.2]
  · exact scan_eq (bytes s).length none s (Nat.le_refl _)

end Scan

end PgRipple.Sparql.Arq
