import Mathlib
import PgRipple.Dictionary.InlineOrder
import PgRipple.Lib.Split
import PgRipple.Shacl.Check
import PgRipple.Shacl.Values
import PgRipple.Storage.Insert

/-!
# Comparing values

`compare_dictionary_values` compares the decoded texts of two ids. For an inline id that is the
literal with its quotes and its datatype, for a row of the dictionary only the lexical form, and
numbers are only looked for between quotes. So two inline integers are compared by value, an
inline value comes before every row, and all other pairs are compared as texts.

The bound of `sh:minInclusive` and its like reaches the check as the text that the shape parser
makes of it, and is looked up there as if it were an IRI. As a rule there is no such IRI, and the
constraint is skipped.
-/

namespace PgRipple.Shacl

open Split (rsplitOnce rsplitOnce_last)
open Dictionary (Text Chrono isInline isWhitespace trim tryEncodeInline formatInline writeTyped
  parseInteger)

section Model

variable (prefixes : List (Text × Text))

/-- `expand_iri`. -/
def expandIri (token : Text) : Except Text Text :=
  let token := trim token
  if token.head? = some '<' ∧ token.getLast? = some '>' then .ok token.tail.dropLast
  else if ':' ∈ token then
    let name := token.takeWhile (· ≠ ':')
    match prefixes.lookup name with
    | some ns => .ok (ns ++ (token.dropWhile (· ≠ ':')).tail)
    | none => .error ("unknown prefix '".toList ++ name ++ "' in token '".toList ++ token ++
        "'".toList)
  else .ok token

/-- `expand_literal_or_iri`. -/
def expandLiteralOrIri (token : Text) : Except Text Text :=
  let token := trim token
  if token.head? = some '"' ∨ token.head? = some '\'' then
    match rsplitOnce "^^".toList token with
    | some (before, datatype) => do
      let iri ← expandIri prefixes (trim datatype)
      .ok (before ++ "^^".toList ++ '<' :: iri ++ ['>'])
    | none => .ok token
  else expandIri prefixes token

end Model

/-- The four constraints with a bound. -/
inductive Range where
  | minExclusive | maxExclusive | minInclusive | maxInclusive
  deriving DecidableEq

namespace Range

def component : Range → Component
  | minExclusive => .minExclusive
  | maxExclusive => .maxExclusive
  | minInclusive => .minInclusive
  | maxInclusive => .maxInclusive

/-- The order of a value and the bound that the constraint asks for. -/
def admits : Range → Ordering → Bool
  | minExclusive => (· = .gt)
  | maxExclusive => (· = .lt)
  | minInclusive => (· ≠ .lt)
  | maxInclusive => (· ≠ .gt)

def check (args : ConstraintArgs) : Range → Text → List Violation
  | minExclusive => args.checkMinExclusive
  | maxExclusive => args.checkMaxExclusive
  | minInclusive => args.checkMinInclusive
  | maxInclusive => args.checkMaxInclusive

theorem check_eq (args : ConstraintArgs) (range : Range) (b : Text) :
    range.check args b = args.checkBound range.component range.admits b := by
  cases range
  all_goals rfl

end Range

/-- A literal as it is written as a bound: a number, or a quoted integer or decimal with its
datatype. -/
inductive Written (prefixes : List (Text × Text)) : Text → ℚ → Prop
  | bare {token : Text} {q : ℚ} (read : readDecimal (trim token) = some q) :
      Written prefixes token q
  | typed {token lexical datatype iri : Text} {q : ℚ} (quote : Char)
      (quoted : quote = '"' ∨ quote = '\'')
      (text : trim token = quote :: lexical ++ quote :: "^^".toList ++ datatype)
      (name : '^' ∉ datatype) (known : expandIri prefixes datatype = .ok iri)
      (numeric : iri ∈ integerDatatypes ∨ iri = Dictionary.xsd "decimal")
      (read : readNumber lexical iri = some (.finite q)) : Written prefixes token q

/-- The id of a literal: an inline one, or that of a row. -/
inductive StoredAs (env : Env) (chrono : Chrono) (lexical datatype : Text) (id : TermId) : Prop
  | inline (encoded : tryEncodeInline chrono lexical datatype = some id)
      (shown : env.terms.decode id = some (formatInline chrono id))
  | row (positive : isInline id = false)
      (stored : env.terms.row id = some ⟨lexical, .typedLiteral, some datatype, none, none⟩)
      (shown : env.terms.decode id = some lexical)

/-- `f64` is exact on the numbers, and does not read times and dates as they are printed. -/
structure FloatsExact (services : Services) (chrono : Chrono) : Prop where
  numbers : ∀ x y p q, readDouble x = some p → readDouble y = some q →
    services.compareNumbers x y = some (some (cmp p q))
  days : ∀ n y, services.compareNumbers (chrono.formatDays n) y = none
  times : ∀ n y, services.compareNumbers (chrono.formatMicros n) y = none

/-- The values of the path that are stored numbers. -/
def NumberAt (args : ConstraintArgs) (chrono : Chrono) (v : TermId) (lexical : Text)
    (p : Number) : Prop :=
  v ∈ args.values ∧ ∃ datatype, StoredAs args.env chrono lexical datatype v ∧
    literalValue lexical datatype = some (.number p)

/-- A violation is reported exactly for the numbers outside the bound. -/
def Enforced (args : ConstraintArgs) (chrono : Chrono) (prefixes : List (Text × Text))
    (range : Range) (token : Text) (q : ℚ) : Prop :=
  ∃ b, expandLiteralOrIri prefixes token = .ok b ∧
    ∀ v lexical p, NumberAt args chrono v lexical p →
      (args.safeViolation range.component (.outOfRange ((args.env.terms.decode v).getD []) b) ∈
          range.check args b ↔
        range.admits (cmp p (.finite q)) = false)

section Texts

variable {env : Env} {chrono : Chrono} {a b : TermId} {x y lexical datatype : Text}

theorem quotedPart_of_starts (starts : Starts x) : quotedPart x = none := by
  obtain ⟨c, rest, rfl, start⟩ := starts
  rw [quotedPart]
  intro rest' same
  have later := quote_lt_of_starts start
  rw [(List.cons.inj same).1] at later
  exact Char.lt_irrefl _ later

theorem quotedPart_quoted (free : '"' ∉ x) (y : Text) :
    quotedPart ('"' :: (x ++ '"' :: y)) = some x := by
  have shorter : (x ++ '"' :: y).takeWhile (· ≠ '"') = x := by
    rw [List.takeWhile_append_of_pos]
    · simp
    · intro c hc
      exact decide_eq_true fun same => free (same ▸ hc)
  rw [quotedPart, if_pos (by simp), shorter]

theorem compareTexts_cons_lt {c d : Char} (h : c < d) :
    compareTexts (c :: x) (d :: y) = .lt := by
  have differ : c :: x ≠ d :: y := by
    intro same
    rw [(List.cons.inj same).1] at h
    exact Char.lt_irrefl _ h
  rw [compareTexts, if_neg differ, if_pos (List.cons_lt_cons_iff.mpr (.inl h))]

theorem compareTexts_cons_gt {c d : Char} (h : d < c) :
    compareTexts (c :: x) (d :: y) = .gt := by
  have differ : c ≠ d := by
    rintro rfl
    exact Char.lt_irrefl _ h
  have later : ¬ c :: x < d :: y := by
    rw [List.cons_lt_cons_iff]
    rintro (less | ⟨same, -⟩)
    · exact Char.lt_asymm h less
    · exact differ same
  rw [compareTexts, if_neg fun same => differ (List.cons.inj same).1, if_neg later]

/-- A quote comes before whatever a value starts with. -/
theorem compareTexts_quote (starts : Starts y) : compareTexts ('"' :: x) y = .lt := by
  obtain ⟨c, rest, rfl, start⟩ := starts
  exact compareTexts_cons_lt (quote_lt_of_starts start)

theorem compareTexts_starts_quote (starts : Starts x) : compareTexts x ('"' :: y) = .gt := by
  obtain ⟨c, rest, rfl, start⟩ := starts
  exact compareTexts_cons_gt (quote_lt_of_starts start)

theorem formatInline_quoted (chrono : Chrono) (id : Int) :
    ∃ rest, formatInline chrono id = '"' :: rest := by
  unfold formatInline
  dsimp only
  split_ifs
  all_goals exact ⟨_, rfl⟩

/-- If one of the texts has no number between quotes, the texts are compared. -/
theorem compareDictionaryValues_texts (ha : env.terms.decode a = some x)
    (hb : env.terms.decode b = some y)
    (plain : ((quotedPart x).bind fun s => (quotedPart y).bind fun t =>
      env.services.compareNumbers s t) = none) :
    compareDictionaryValues env a b = some (compareTexts x y) := by
  rw [compareDictionaryValues, ha, hb, Option.bind_some, Option.bind_some, plain]

theorem compareDictionaryValues_numbers {s t : Text} {o : Option Ordering}
    (ha : env.terms.decode a = some x) (hb : env.terms.decode b = some y)
    (first : quotedPart x = some s) (second : quotedPart y = some t)
    (numbers : env.services.compareNumbers s t = some o) :
    compareDictionaryValues env a b = o := by
  rw [compareDictionaryValues, ha, hb, Option.bind_some, Option.bind_some, first, second,
    Option.bind_some, Option.bind_some, numbers]

end Texts

section Pairs

variable {env : Env} {chrono : Chrono} {a b id : TermId} {lexical datatype : Text} {v w : Value}

theorem isInline_of_tryEncodeInline (encoded : tryEncodeInline chrono lexical datatype = some id) :
    isInline id = true := by
  refine decide_eq_true ?_
  unfold tryEncodeInline at encoded
  split at encoded
  · exact (Dictionary.lawful_tryEncodeInteger.inline encoded).1
  · exact (Dictionary.tryEncodeBoolean_inline encoded).1
  · exact ((Dictionary.lawful_tryEncodeDatetime chrono).inline encoded).1
  · exact ((Dictionary.lawful_tryEncodeDate chrono).inline encoded).1
  · cases encoded

theorem quotedPart_writeTyped {value : Text} (free : '"' ∉ value) (iri : Text) :
    quotedPart (writeTyped value iri) = some value := by
  have shape : writeTyped value iri = '"' :: (value ++ '"' :: ("^^<".toList ++ iri ++ ['>'])) := by
    simp [writeTyped]
  rw [shape, quotedPart_quoted free]

theorem trim_of_parseInteger {n : Int} (h : parseInteger lexical = some n) :
    trim lexical = lexical := by
  have solid {s : Text} {m : Nat} (read : Dictionary.parseDigits s = some m) (c : Char)
      (hc : c ∈ s) : isWhitespace c = false :=
    Dictionary.isWhitespace_alphanum
      (.inl (by simp [Char.isAlphanum, (digits_of_parseDigits read).2.1 c hc]))
  have all : ∀ c ∈ lexical, isWhitespace c = false := by
    unfold parseInteger at h
    split at h
    · obtain ⟨m, read, -⟩ := Option.map_eq_some_iff.mp h
      exact List.forall_mem_cons.mpr ⟨by decide, solid read⟩
    · obtain ⟨m, read, -⟩ := Option.map_eq_some_iff.mp h
      exact List.forall_mem_cons.mpr ⟨by decide, solid read⟩
    · obtain ⟨m, read, -⟩ := Option.map_eq_some_iff.mp h
      exact solid read
  cases lexical with
  | nil => rfl
  | cons c rest =>
    refine Dictionary.trim_eq_self rfl (List.getLast?_eq_getLast_of_ne_nil (by simp))
      (all c List.mem_cons_self) (all _ (List.getLast_mem _))

/-- An inline number is an integer, which is printed between quotes. -/
theorem inline_number {p : Number} (encoded : tryEncodeInline chrono lexical datatype = some id)
    (value : literalValue lexical datatype = some (.number p)) :
    ∃ n : Int, p = .finite n ∧
      formatInline chrono id = writeTyped (toString n).toList (Dictionary.xsd "integer") := by
  have read : readNumber lexical datatype = some p := by
    unfold literalValue at value
    split at value
    · obtain ⟨m, -, other⟩ := Option.map_eq_some_iff.mp value
      cases other
    split at value
    · obtain ⟨m, -, other⟩ := Option.map_eq_some_iff.mp value
      cases other
    · obtain ⟨n, read, same⟩ := Option.map_eq_some_iff.mp value
      cases same
      exact read
  unfold tryEncodeInline at encoded
  split at encoded
  · rename_i t ofIri
    have listed : datatype ∈ integerDatatypes := by
      rw [Dictionary.Datatype.ofIri_integer ofIri]
      cases t
      all_goals exact mem_integerDatatypes.mpr (by decide)
    rw [readNumber, if_pos listed] at read
    obtain ⟨n, parsed, rfl⟩ := Option.map_eq_some_iff.mp read
    obtain ⟨n', parsed', -, packed⟩ := Dictionary.tryEncodeInteger_eq_some.mp encoded
    rw [trim_of_parseInteger parsed, parsed] at parsed'
    cases parsed'
    obtain ⟨-, type, held, -⟩ := Dictionary.packSigned_eq_some (by decide) packed
    refine ⟨n, rfl, ?_⟩
    rw [formatInline, type, held]
    rfl
  · rename_i ofIri
    rw [Dictionary.Datatype.ofIri_boolean ofIri] at read
    rw [readNumber_xsd_eq_none (by decide) (by decide)] at read
    cases read
  · rename_i ofIri
    rw [Dictionary.Datatype.ofIri_dateTime ofIri] at read
    rw [readNumber_xsd_eq_none (by decide) (by decide)] at read
    cases read
  · rename_i ofIri
    rw [Dictionary.Datatype.ofIri_date ofIri] at read
    rw [readNumber_xsd_eq_none (by decide) (by decide)] at read
    cases read
  · cases encoded

/-- The text of an inline date or date-time is no number between quotes. -/
theorem inline_time (floats : FloatsExact env.services chrono)
    (encoded : tryEncodeInline chrono lexical datatype = some id)
    (value : literalValue lexical datatype = some v) (time : ∀ p, v ≠ .number p) :
    ∃ s, quotedPart (formatInline chrono id) = some s ∧
      ∀ t, env.services.compareNumbers s t = none := by
  have plain {s : Text} (printed : ∀ c ∈ s, Dictionary.escapeCode c = none) : '"' ∉ s :=
    fun quote => absurd (printed '"' quote) (by decide)
  have named : datatype = Dictionary.xsd "date" ∨ datatype = Dictionary.xsd "dateTime" := by
    unfold literalValue at value
    split at value
    · exact .inl ‹_›
    split at value
    · exact .inr ‹_›
    · obtain ⟨n, -, same⟩ := Option.map_eq_some_iff.mp value
      exact absurd same.symm (time n)
  obtain rfl | rfl := named
  · have date : Dictionary.Datatype.ofIri (Dictionary.xsd "date") = .date := by decide
    simp only [tryEncodeInline, date] at encoded
    obtain ⟨-, type⟩ := (Dictionary.lawful_tryEncodeDate chrono).inline encoded
    have text : formatInline chrono id =
        writeTyped (chrono.formatDays (Dictionary.decodeSigned id)) (Dictionary.xsd "date") := by
      rw [formatInline, type]
      rfl
    refine ⟨_, ?_, floats.days (Dictionary.decodeSigned id)⟩
    rw [text]
    exact quotedPart_writeTyped (plain (chrono.plain_formatDays _)) _
  · have dateTime : Dictionary.Datatype.ofIri (Dictionary.xsd "dateTime") = .dateTime := by
      decide
    simp only [tryEncodeInline, dateTime] at encoded
    obtain ⟨-, type⟩ := (Dictionary.lawful_tryEncodeDatetime chrono).inline encoded
    have text : formatInline chrono id = writeTyped
        (chrono.formatMicros (Dictionary.decodeSigned id)) (Dictionary.xsd "dateTime") := by
      rw [formatInline, type]
      rfl
    refine ⟨_, ?_, floats.times (Dictionary.decodeSigned id)⟩
    rw [text]
    exact quotedPart_writeTyped (plain (chrono.plain_formatMicros _)) _

theorem quotedPart_inline_number {p : Number}
    (encoded : tryEncodeInline chrono lexical datatype = some id)
    (value : literalValue lexical datatype = some (.number p)) :
    ∃ s, quotedPart (formatInline chrono id) = some s ∧ readDouble s = some p := by
  obtain ⟨n, rfl, text⟩ := inline_number encoded value
  have free : '"' ∉ (toString n).toList := by
    intro quote
    have := Dictionary.mem_toString_int quote
    revert this
    decide
  refine ⟨_, by rw [text, quotedPart_writeTyped free], ?_⟩
  exact readDouble_of_readDecimal
    (readDecimal_of_parseInteger (Dictionary.parseInteger_toString n))

/-- The order in which two literals are found: by value only for two inline numbers. -/
def FoundOrder (chrono : Chrono) (a b : TermId) (lexicalA lexicalB : Text) (v w : Value) :
    Ordering :=
  match isInline a, isInline b, v, w with
  | true, true, .number p, .number q => cmp p q
  | true, true, _, _ => compareTexts (formatInline chrono a) (formatInline chrono b)
  | true, false, _, _ => .lt
  | false, true, _, _ => .gt
  | false, false, _, _ => compareTexts lexicalA lexicalB

variable {lexicalA lexicalB datatypeA datatypeB : Text} {o : Ordering}

theorem compareDictionaryValues_stored (floats : FloatsExact env.services chrono)
    (storedA : StoredAs env chrono lexicalA datatypeA a)
    (storedB : StoredAs env chrono lexicalB datatypeB b)
    (valueA : literalValue lexicalA datatypeA = some v)
    (valueB : literalValue lexicalB datatypeB = some w) (comparable : v.order w = some o) :
    compareDictionaryValues env a b = some (FoundOrder chrono a b lexicalA lexicalB v w) := by
  have startsA := starts_of_literalValue valueA
  have startsB := starts_of_literalValue valueB
  cases storedA with
  | inline encodedA shownA =>
    have inlineA := isInline_of_tryEncodeInline encodedA
    obtain ⟨restA, quotedA⟩ := formatInline_quoted chrono a
    cases storedB with
    | inline encodedB shownB =>
      have inlineB := isInline_of_tryEncodeInline encodedB
      by_cases numbers : ∃ p, v = .number p
      · obtain ⟨p, rfl⟩ := numbers
        cases w with
        | number q =>
          obtain ⟨s, quoteA, readA⟩ := quotedPart_inline_number encodedA valueA
          obtain ⟨t, quoteB, readB⟩ := quotedPart_inline_number encodedB valueB
          simp only [FoundOrder, inlineA, inlineB]
          exact compareDictionaryValues_numbers shownA shownB quoteA quoteB
            (floats.numbers s t p q readA readB)
        | date m => cases comparable
        | dateTime m => cases comparable
      · obtain ⟨s, quoteA, none'⟩ := inline_time floats encodedA valueA
          fun p same => numbers ⟨p, same⟩
        have order : FoundOrder chrono a b lexicalA lexicalB v w =
            compareTexts (formatInline chrono a) (formatInline chrono b) := by
          cases v with
          | number p => exact absurd ⟨p, rfl⟩ numbers
          | date m => simp only [FoundOrder, inlineA, inlineB]
          | dateTime m => simp only [FoundOrder, inlineA, inlineB]
        rw [order]
        refine compareDictionaryValues_texts shownA shownB ?_
        rw [quoteA, Option.bind_some]
        exact Option.bind_eq_none_iff.mpr fun t _ => none' t
    | row inlineB storedB shownB =>
      have order : FoundOrder chrono a b lexicalA lexicalB v w = .lt := by
        simp only [FoundOrder, inlineA, inlineB]
      rw [order, ← @compareTexts_quote restA _ startsB, ← quotedA]
      refine compareDictionaryValues_texts shownA shownB ?_
      rw [quotedPart_of_starts startsB]
      exact Option.bind_eq_none_iff.mpr fun s _ => rfl
  | row inlineA storedA shownA =>
    have unquoted := quotedPart_of_starts startsA
    cases storedB with
    | inline encodedB shownB =>
      have inlineB := isInline_of_tryEncodeInline encodedB
      obtain ⟨restB, quotedB⟩ := formatInline_quoted chrono b
      have order : FoundOrder chrono a b lexicalA lexicalB v w = .gt := by
        simp only [FoundOrder, inlineA, inlineB]
      rw [order, ← @compareTexts_starts_quote _ restB startsA, ← quotedB]
      refine compareDictionaryValues_texts shownA shownB ?_
      rw [unquoted, Option.bind_none]
    | row inlineB storedB shownB =>
      have order : FoundOrder chrono a b lexicalA lexicalB v w =
          compareTexts lexicalA lexicalB := by
        simp only [FoundOrder, inlineA, inlineB]
      rw [order]
      refine compareDictionaryValues_texts shownA shownB ?_
      rw [unquoted, Option.bind_none]

/-- The pair is ordered by value: two inline numbers, an inline literal that is the smaller one,
or texts in the order of the values. -/
def TextsOrdered (chrono : Chrono) (a b : TermId) (lexicalA lexicalB : Text) (v : Value)
    (o : Ordering) : Prop :=
  match isInline a, isInline b with
  | true, true =>
    (∃ p, v = .number p) ∨ compareTexts (formatInline chrono a) (formatInline chrono b) = o
  | true, false => o = .lt
  | false, true => o = .gt
  | false, false => compareTexts lexicalA lexicalB = o

theorem foundOrder_eq_iff (comparable : v.order w = some o) :
    FoundOrder chrono a b lexicalA lexicalB v w = o ↔
      TextsOrdered chrono a b lexicalA lexicalB v o := by
  unfold FoundOrder TextsOrdered
  cases isInline a with
  | true =>
    cases isInline b with
    | true =>
      cases v with
      | number p =>
        cases w with
        | number q =>
          have same : cmp p q = o := Option.some.inj comparable
          simp [same]
        | date m => cases comparable
        | dateTime m => cases comparable
      | date m => simp
      | dateTime m => simp
    | false => simp [eq_comm]
  | false =>
    cases isInline b with
    | true => simp [eq_comm]
    | false => simp

end Pairs

section Ranges

variable {args : ConstraintArgs} {chrono : Chrono} {prefixes : List (Text × Text)}
  {range : Range} {token lexical b : Text} {v id : TermId} {p : Number} {q : ℚ}

theorem trim_trim (s : Text) : trim (trim s) = trim s := by
  cases shape : trim s with
  | nil => rfl
  | cons c rest =>
    have front : trim s <+: s.dropWhile isWhitespace := List.rdropWhile_prefix _ _
    rw [shape] at front
    obtain ⟨after, split⟩ := front
    have head : (s.dropWhile isWhitespace).head? = some c := by rw [← split]; rfl
    have solid : isWhitespace c = false := by
      have := List.head?_dropWhile_not isWhitespace s
      rw [head] at this
      simpa using this
    have some' : trim s ≠ [] := by simp [shape]
    have last : isWhitespace ((trim s).getLast some') = false :=
      Bool.eq_false_iff.mpr (List.rdropWhile_last_not isWhitespace _ some')
    rw [← shape]
    refine Dictionary.trim_eq_self ?_ (List.getLast?_eq_getLast_of_ne_nil some') solid last
    rw [shape]
    rfl

theorem expandIri_trim (token : Text) :
    expandIri prefixes (trim token) = expandIri prefixes token := by
  rw [expandIri, expandIri, trim_trim]

/-- What the parser makes of a written bound: either a text that starts like a number, or one
between quotes. -/
theorem expandLiteralOrIri_written (written : Written prefixes token q) :
    ∃ b, expandLiteralOrIri prefixes token = .ok b ∧
      (Starts b ∨
        (∃ rest, b = '\'' :: rest) ∨
        ∃ s rest, b = '"' :: (s ++ '"' :: rest) ∧ '"' ∉ s ∧ readDouble s = some (.finite q)) := by
  cases written with
  | bare read =>
    have chars := chars_of_readDecimal read
    have starts : Starts (trim token) := by
      refine starts_of_signed ?_ read
      intro s q read
      obtain ⟨r, read, -⟩ := Option.bind_eq_some_iff.mp read
      exact starts_of_mantissa read
    have foreign (c : Char) (other : ¬(c.isDigit = true ∨ c ∈ ['-', '+', '.'])) :
        c ∉ trim token := fun hc => other (chars c hc)
    have head (c : Char) (other : ¬(c.isDigit = true ∨ c ∈ ['-', '+', '.'])) :
        (trim token).head? ≠ some c := fun first => foreign c other (List.mem_of_head? first)
    refine ⟨trim token, ?_, .inl starts⟩
    rw [expandLiteralOrIri, if_neg (by simp [head]), expandIri_trim, expandIri]
    rw [if_neg (by simp [head]), if_neg (foreign ':' (by decide))]
  | typed quote quoted text name known numeric read =>
    rename_i lexical datatype iri
    have cut : rsplitOnce "^^".toList (trim token) =
        some (quote :: lexical ++ [quote], datatype) := by
      have free : ¬ ['^', '^'] <:+: ['^'] ++ datatype := by
        intro twice
        have second : ['^'] <:+: datatype := by
          obtain first | later := List.infix_cons_iff.mp twice
          · exact (List.prefix_cons_inj '^').mp first |>.isInfix
          · exact (List.infix_cons_iff.mpr (.inr (List.infix_rfl))).trans later
        exact name (second.subset (List.mem_singleton_self '^'))
      have last : rsplitOnce ['^', '^']
          (quote :: lexical ++ [quote] ++ '^' :: (['^'] ++ datatype)) =
            some (quote :: lexical ++ [quote], datatype) := rsplitOnce_last free
      rw [text, show quote :: lexical ++ quote :: "^^".toList ++ datatype =
        quote :: lexical ++ [quote] ++ '^' :: (['^'] ++ datatype) by simp]
      exact last
    have decimal : ∃ r, readDecimal lexical = some r := by
      unfold readNumber at read
      split at read
      · obtain ⟨n, parsed, -⟩ := Option.map_eq_some_iff.mp read
        exact ⟨n, readDecimal_of_parseInteger parsed⟩
      split at read
      · obtain ⟨r, found, -⟩ := Option.map_eq_some_iff.mp read
        exact ⟨r, found⟩
      · rename_i integer other
        exact absurd numeric (by simp [integer, other])
    obtain ⟨r, decimal⟩ := decimal
    have plain : '"' ∉ lexical := fun quote =>
      absurd (chars_of_readDecimal decimal '"' quote) (by decide)
    have head : (trim token).head? = some quote := by rw [text]; rfl
    have expanded : expandLiteralOrIri prefixes token =
        .ok (quote :: lexical ++ [quote] ++ "^^".toList ++ '<' :: iri ++ ['>']) := by
      rw [expandLiteralOrIri, if_pos (by rw [head]; simpa using quoted), cut]
      dsimp only
      rw [expandIri_trim, known]
      rfl
    refine ⟨_, expanded, .inr ?_⟩
    obtain rfl | rfl := quoted
    · exact .inr ⟨lexical, "^^".toList ++ '<' :: iri ++ ['>'], by simp, plain,
        readDouble_of_readNumber read⟩
    · exact .inl ⟨_, rfl⟩

/-- A violation is reported for the values that the check does not admit. -/
theorem mem_check_iff (hv : v ∈ args.values) {t : Text} (shown : args.env.terms.decode v = some t) :
    args.safeViolation range.component (.outOfRange t b) ∈ range.check args b ↔
      ∃ id, args.env.terms.lookupIri b = some id ∧
        ((compareDictionaryValues args.env v id).map range.admits).getD true = false := by
  rw [range.check_eq, ConstraintArgs.checkBound]
  cases found : args.env.terms.lookupIri b with
  | none => simp
  | some id =>
    simp only [Option.some.injEq, exists_eq_left', List.mem_map, List.mem_filter,
      Bool.not_eq_true']
    constructor
    · rintro ⟨v', ⟨-, refused⟩, same⟩
      have text : (args.env.terms.decode v').getD [] = t := by
        have message := congrArg Violation.message same
        simpa [ConstraintArgs.safeViolation, ConstraintArgs.violation] using message
      cases shown' : args.env.terms.decode v' with
      | none => simp [compareDictionaryValues, shown'] at refused
      | some t' =>
        rw [shown', Option.getD_some] at text
        rw [text] at shown'
        rw [compareDictionaryValues, shown'] at refused
        rw [compareDictionaryValues, shown]
        exact refused
    · intro refused
      exact ⟨v, ⟨hv, refused⟩, by rw [shown, Option.getD_some]⟩

/-- The order in which a value and the bound are found, if there is an IRI with the text of the
bound. -/
def foundBound (v : TermId) (lexical b : Text) (p : Number) (q : ℚ) : Ordering :=
  if isInline v then if b.head? = some '"' then cmp p (.finite q) else .lt
  else compareTexts lexical b

/-- The bound is no IRI and all numbers of the path are within it; or it is an IRI, and every
number is on the right side of it: an inline one if it is smaller or the bound has double quotes,
any other one if the texts are in this order. -/
def BoundMet (args : ConstraintArgs) (chrono : Chrono) (range : Range) (b : Text) (q : ℚ) : Prop :=
  ∀ v lexical p, NumberAt args chrono v lexical p →
    match args.env.terms.lookupIri b with
    | none => range.admits (cmp p (.finite q)) = true
    | some _ =>
      if isInline v then
        b.head? = some '"' ∨ range.admits .lt = range.admits (cmp p (.finite q))
      else range.admits (compareTexts lexical b) = range.admits (cmp p (.finite q))

theorem compareDictionaryValues_bound (floats : FloatsExact args.env.services chrono)
    (shown : args.env.terms.decode id = some b) {datatype : Text}
    (stored : StoredAs args.env chrono lexical datatype v)
    (value : literalValue lexical datatype = some (.number p))
    (shape : Starts b ∨ (∃ rest, b = '\'' :: rest) ∨
      ∃ s rest, b = '"' :: (s ++ '"' :: rest) ∧ '"' ∉ s ∧ readDouble s = some (.finite q)) :
    compareDictionaryValues args.env v id = some (foundBound v lexical b p q) := by
  cases stored with
  | inline encoded shownV =>
    rw [foundBound, if_pos (isInline_of_tryEncodeInline encoded)]
    obtain ⟨front, quoted⟩ := formatInline_quoted chrono v
    obtain starts | ⟨rest, rfl⟩ | ⟨s, rest, rfl, plain, read⟩ := shape
    · have unquoted : b.head? ≠ some '"' := by
        obtain ⟨c, rest, rfl, start⟩ := starts
        intro same
        rw [List.head?_cons, Option.some.injEq] at same
        have later := quote_lt_of_starts start
        rw [same] at later
        exact Char.lt_irrefl _ later
      rw [if_neg unquoted, ← @compareTexts_quote front _ starts, ← quoted]
      refine compareDictionaryValues_texts shownV shown ?_
      rw [quotedPart_of_starts starts]
      exact Option.bind_eq_none_iff.mpr fun _ _ => rfl
    · have before : compareTexts ('"' :: front) ('\'' :: rest) = .lt :=
        compareTexts_cons_lt (by decide)
      rw [if_neg (by simp), ← before, ← quoted]
      refine compareDictionaryValues_texts shownV shown ?_
      exact Option.bind_eq_none_iff.mpr fun _ _ => rfl
    · obtain ⟨t, quoteV, readV⟩ := quotedPart_inline_number encoded value
      rw [List.head?_cons, if_pos rfl]
      exact compareDictionaryValues_numbers shownV shown quoteV (quotedPart_quoted plain rest)
        (floats.numbers t s p _ readV read)
  | row positive _ shownV =>
    rw [foundBound, if_neg (by simp [positive])]
    refine compareDictionaryValues_texts shownV shown ?_
    rw [quotedPart_of_starts (starts_of_literalValue value), Option.bind_none]

theorem enforced_iff (floats : FloatsExact args.env.services chrono)
    (honest : ∀ t id, args.env.terms.lookupIri t = some id → args.env.terms.decode id = some t)
    (written : Written prefixes token q) :
    Enforced args chrono prefixes range token q ↔
      ∃ b, expandLiteralOrIri prefixes token = .ok b ∧ BoundMet args chrono range b q := by
  obtain ⟨b, expanded, shape⟩ := expandLiteralOrIri_written written
  rw [Enforced, expanded]
  simp only [Except.ok.injEq, exists_eq_left']
  refine forall_congr' fun v => forall_congr' fun lexical => forall_congr' fun p =>
    forall_congr' fun number => ?_
  obtain ⟨hv, datatype, stored, value⟩ := number
  have shown : ∃ t, args.env.terms.decode v = some t := by
    cases stored with
    | inline _ shown => exact ⟨_, shown⟩
    | row _ _ shown => exact ⟨_, shown⟩
  obtain ⟨t, shown⟩ := shown
  rw [shown, Option.getD_some, mem_check_iff hv shown]
  cases found : args.env.terms.lookupIri b with
  | none => simp
  | some id =>
    have order := compareDictionaryValues_bound floats (honest b id found) stored value shape
    have refused : (range.admits (foundBound v lexical b p q) = false ↔
        range.admits (cmp p (.finite q)) = false) ↔
          range.admits (foundBound v lexical b p q) = range.admits (cmp p (.finite q)) := by
      cases range.admits (foundBound v lexical b p q)
      all_goals simp
    simp only [Option.some.injEq, exists_eq_left', order, Option.map_some,
      Option.getD_some, refused]
    unfold foundBound
    split_ifs with inline quote
    · simp [quote]
    · simp [quote]
    · rfl

end Ranges

/-- A bound is enforced if and only if it is no IRI of the dictionary and not exceeded, or it is
one and found on the right side of every number; two literals are compared by value if and only
if both are inline integers, or only the smaller one is inline, or their texts have the order of
the values. -/
theorem valueComparisons_iff (args : ConstraintArgs) (chrono : Chrono)
    (prefixes : List (Text × Text)) (floats : FloatsExact args.env.services chrono)
    (honest : ∀ t id, args.env.terms.lookupIri t = some id → args.env.terms.decode id = some t) :
    (∀ range token q, Written prefixes token q →
      (Enforced args chrono prefixes range token q ↔
        ∃ b, expandLiteralOrIri prefixes token = .ok b ∧ BoundMet args chrono range b q)) ∧
    ∀ a b lexicalA datatypeA lexicalB datatypeB v w o,
      StoredAs args.env chrono lexicalA datatypeA a →
      StoredAs args.env chrono lexicalB datatypeB b →
      literalValue lexicalA datatypeA = some v → literalValue lexicalB datatypeB = some w →
      v.order w = some o →
      (compareDictionaryValues args.env a b = some o ↔
        TextsOrdered chrono a b lexicalA lexicalB v o) := by
  refine ⟨fun _ _ _ written => enforced_iff floats honest written, ?_⟩
  intro a b lexicalA datatypeA lexicalB datatypeB v w o storedA storedB valueA valueB comparable
  rw [compareDictionaryValues_stored floats storedA storedB valueA valueB comparable,
    Option.some.injEq, foundOrder_eq_iff comparable]

/-- A stand-in for `chrono` that marks times with a letter and reads no dates. -/
def markedChrono : Chrono where
  parseDateTime
    | 'T' :: s => (parseInteger s).map fun m => (m / 10 ^ 6, (m % 10 ^ 6).toNat * 1000)
    | _ => none
  parseDate _ := none
  formatMicros m := 'T' :: (toString m).toList
  formatDays _ := []
  parse_formatMicros m _ := by
    have plain : ∀ c ∈ 'T' :: (toString m).toList, c.isAlphanum ∨ c = '-' :=
      List.forall_mem_cons.mpr ⟨by decide, fun c hc => Dictionary.mem_toString_int hc⟩
    rw [Dictionary.trim_of_plain plain]
    show (parseInteger (toString m).toList).map _ = _
    rw [Dictionary.parseInteger_toString, Option.map_some]
  parse_formatDays _ _ read := by cases read
  plain_formatMicros m c hc := by
    refine Dictionary.escapeCode_plain ?_
    obtain rfl | hc := List.mem_cons.mp hc
    · decide
    · exact Dictionary.mem_toString_int hc
  plain_formatDays _ c hc := by cases hc

def exactServices : Services where
  matchesRegex _ _ := none
  compareNumbers x y := (readDouble x).bind fun p => (readDouble y).map fun q => some (cmp p q)
  toLowercase s := s
  exceeding _ _ _ := 0
  sparql _ := none

theorem compareNumbers_eq_none {x : Text} (none' : readDouble x = none) (y : Text) :
    exactServices.compareNumbers x y = none := by
  simp [exactServices, none']

theorem floatsExact_exactServices : FloatsExact exactServices markedChrono where
  numbers x y p q first second := by simp [exactServices, first, second]
  days n y := compareNumbers_eq_none (by decide : readDouble [] = none) y
  times n y := by
    refine compareNumbers_eq_none ?_ y
    by_contra read
    obtain ⟨p, read⟩ := Option.ne_none_iff_exists'.mp read
    obtain ⟨c, rest, same, start⟩ := starts_of_readDouble read
    rw [← (List.cons.inj same).1] at start
    revert start
    decide

/-- The ids of the integers 3 and 5. -/
def three : TermId := -9187343239835811837
def five : TermId := -9187343239835811835

/-- A dictionary with inline values only, and a triple with the object 3. -/
def threeArgs : ConstraintArgs where
  env :=
    { terms :=
        { lookupIri := fun _ => none
          lookupPlain := fun _ => none
          encodeTypedLiteral := fun _ _ => 0
          encodeLangLiteral := fun _ _ => 0
          row := fun _ => none
          decode := fun id => if isInline id then some (formatInline markedChrono id) else none }
      services := exactServices }
  store := (Storage.Store.insertEncodedTriple 0 ⟨1, 2, three, 0⟩ Storage.Store.initial).2
  focus := 1
  count := 1
  pathId := 2
  graphId := -1
  shapeIri := "S".toList
  pathIri := "p".toList
  conforms := fun _ _ => none

theorem storedAs_three :
    StoredAs threeArgs.env markedChrono "3".toList (Dictionary.xsd "integer") three :=
  .inline (by decide) rfl

theorem storedAs_five :
    StoredAs threeArgs.env markedChrono "5".toList (Dictionary.xsd "integer") five :=
  .inline (by decide) rfl

theorem literalValue_integer (n : Int) :
    literalValue (toString n).toList (Dictionary.xsd "integer") =
      some (.number (.finite n)) := by
  rw [literalValue, if_neg (xsd_inj.not.mpr (by decide)), if_neg (xsd_inj.not.mpr (by decide)),
    readNumber, if_pos (mem_integerDatatypes.mpr (by decide)), Dictionary.parseInteger_toString]
  rfl

theorem valueComparisons_three_five :
    compareDictionaryValues threeArgs.env three five = some .lt :=
  ((valueComparisons_iff threeArgs markedChrono [] floatsExact_exactServices
    (by simp [threeArgs])).2 three five _ _ _ _ _ _ _ storedAs_three storedAs_five
    (literalValue_integer 3)
    (literalValue_integer 5) (by decide)).mpr (.inl ⟨_, rfl⟩)

/-- The value 3 is not reported by `sh:minInclusive 5`. -/
theorem not_valueComparisons :
    ¬ ∀ (args : ConstraintArgs) (chrono : Chrono) (prefixes : List (Text × Text)),
      FloatsExact args.env.services chrono →
      (∀ t id, args.env.terms.lookupIri t = some id → args.env.terms.decode id = some t) →
      (∀ range token q, Written prefixes token q →
        Enforced args chrono prefixes range token q) ∧
      ∀ a b lexicalA datatypeA lexicalB datatypeB v w o,
        StoredAs args.env chrono lexicalA datatypeA a →
        StoredAs args.env chrono lexicalB datatypeB b →
        literalValue lexicalA datatypeA = some v → literalValue lexicalB datatypeB = some w →
        v.order w = some o → compareDictionaryValues args.env a b = some o := by
  intro all
  have right := (all threeArgs markedChrono [] floatsExact_exactServices (by simp [threeArgs])).1
    .minInclusive "5".toList 5 (.bare (by decide +kernel))
  obtain ⟨b, -, enforced⟩ := right
  have stored : NumberAt threeArgs markedChrono three "3".toList (.finite 3) :=
    ⟨by decide, _, storedAs_three, literalValue_integer 3⟩
  have reported := (enforced three _ _ stored).mpr (by decide)
  have none' : Range.check threeArgs .minInclusive b = [] := rfl
  rw [none'] at reported
  cases reported

end PgRipple.Shacl
