import PgRipple.Lib.Escape
import Mathlib.Data.List.DropRight
import Mathlib.Tactic.Common

/-!
# N-Triples text of a term

`format_ntriples_term` writes a decoded term, `parse_rdf_term` reads one. The writer
escapes a literal character by character. The reader looks for the closing quote,
stepping over every backslash with the character after it, and then unescapes by five
global replacements, one after the other. The first two restore quotes and backslashes;
from then on a backslash of the literal looks like the beginning of an escape.

Text is a list of Unicode scalar values. The source scans bytes; since a continuation
byte is neither a quote nor a backslash, the scan stops at the same places. `none` stands
for the panic of a string slice that is out of range.
-/

namespace PgRipple.Dictionary

abbrev Text := List Char

instance : LawfulBEq Text := inferInstanceAs (LawfulBEq (List Char))

/-- The `kind` column of the dictionary. -/
inductive Kind
  | iri
  | blank
  | literal
  | typedLiteral
  | langLiteral
  | quotedTriple
  deriving DecidableEq, Repr

/-- What `escape_literal` writes after the backslash. -/
def escapeCode : Char → Option Char
  | '"' => some '"'
  | '\\' => some '\\'
  | '\n' => some 'n'
  | '\r' => some 'r'
  | '\t' => some 't'
  | _ => none

def escapeLiteral (s : Text) : Text := Escape.escape '\\' escapeCode s

def formatNtriplesTerm (value : Text) (kind : Kind) (datatype lang : Option Text)
    (fallbackId : Int) : Text :=
  match kind with
  | .iri => '<' :: value ++ ['>']
  | .blank => "_:b".toList ++ (toString fallbackId).toList
  | .literal => '"' :: escapeLiteral value ++ ['"']
  | .typedLiteral =>
    let dt := datatype.getD "http://www.w3.org/2001/XMLSchema#string".toList
    '"' :: escapeLiteral value ++ "\"^^<".toList ++ dt ++ ['>']
  | .langLiteral =>
    let l := lang.getD "und".toList
    '"' :: escapeLiteral value ++ "\"@".toList ++ l
  | .quotedTriple => value

/-- The Unicode property `White_Space`, which `trim` strips. -/
def isWhitespace (c : Char) : Bool :=
  (0x9 ≤ c.val && c.val ≤ 0xD) || c.val == 0x20 || c.val == 0x85 || c.val == 0xA0 ||
    c.val == 0x1680 || (0x2000 ≤ c.val && c.val ≤ 0x200A) || c.val == 0x2028 ||
    c.val == 0x2029 || c.val == 0x202F || c.val == 0x205F || c.val == 0x3000

def trim (s : Text) : Text := (s.dropWhile isWhitespace).rdropWhile isWhitespace

/-- The text up to the closing quote, and the text after it. -/
def closingQuote : Text → Option (Text × Text)
  | [] => none
  | ['\\'] => none
  | '\\' :: c :: cs => (closingQuote cs).map fun (raw, rest) => ('\\' :: c :: raw, rest)
  | '"' :: cs => some ([], cs)
  | c :: cs => (closingQuote cs).map fun (raw, rest) => (c :: raw, rest)

/-- The five replacements of `parse_rdf_term`. -/
def unescape (raw : Text) : Text :=
  let s := Escape.replacePair '\\' '"' '"' raw
  let s := Escape.replacePair '\\' '\\' '\\' s
  let s := Escape.replacePair '\\' 'n' '\n' s
  let s := Escape.replacePair '\\' 'r' '\r' s
  Escape.replacePair '\\' 't' '\t' s

/-- `parse_rdf_term`: value, kind, datatype and language. -/
def parseRdfTerm (s : Text) : Option (Text × Kind × Option Text × Option Text) :=
  let s := trim s
  if s.head? = some '<' ∧ s.getLast? = some '>' then
    some (s.tail.dropLast, .iri, none, none)
  else if "_:".toList.isPrefixOf s then
    some (s.drop 2, .blank, none, none)
  else if s.head? = some '"' then
    (closingQuote s.tail).map fun (raw, rest) =>
      let value := unescape raw
      if "^^<".toList.isPrefixOf rest ∧ rest.getLast? = some '>' then
        (value, .typedLiteral, some (rest.drop 3).dropLast, none)
      else
        match rest with
        | '@' :: langPart => (value, .langLiteral, none, some langPart)
        | _ => (value, .literal, none, none)
  else
    some (s, .iri, none, none)

theorem escapeCode_eq_some {c k : Char} (h : escapeCode c = some k) :
    (c = '"' ∧ k = '"') ∨ (c = '\\' ∧ k = '\\') ∨ (c = '\n' ∧ k = 'n') ∨
      (c = '\r' ∧ k = 'r') ∨ (c = '\t' ∧ k = 't') := by
  unfold escapeCode at h
  split at h <;> cases h <;> simp

theorem closingQuote_escaped {c : Char} {cs raw rest : Text}
    (h : closingQuote cs = some (raw, rest)) :
    closingQuote ('\\' :: c :: cs) = some ('\\' :: c :: raw, rest) := by
  simp only [closingQuote, h, Option.map_some]

theorem closingQuote_plain {c : Char} {cs raw rest : Text} (backslash : c ≠ '\\')
    (quote : c ≠ '"') (h : closingQuote cs = some (raw, rest)) :
    closingQuote (c :: cs) = some (c :: raw, rest) := by
  rw [closingQuote.eq_def]
  split <;> simp_all

/-- The scan stops at the quote that the writer put. -/
theorem closingQuote_escapeLiteral (value rest : Text) :
    closingQuote (escapeLiteral value ++ '"' :: rest) = some (escapeLiteral value, rest) := by
  unfold escapeLiteral
  induction value with
  | nil => rfl
  | cons c cs ih =>
    cases coded : escapeCode c with
    | some k =>
      rw [Escape.escape_cons_some coded]
      exact closingQuote_escaped ih
    | none =>
      rw [Escape.escape_cons_none coded]
      refine closingQuote_plain ?_ ?_ ih
      · rintro rfl
        cases coded
      · rintro rfl
        cases coded

/-- Text of a literal after the replacements that are meant for escaped line feeds,
carriage returns and tabs. -/
def replaceLookalikes (value : Text) : Text :=
  Escape.replacePair '\\' 't' '\t'
    (Escape.replacePair '\\' 'r' '\r' (Escape.replacePair '\\' 'n' '\n' value))

/-- The first two replacements undo the escaping of quotes and backslashes. The other
three undo the rest of it, and rewrite the literal as well. -/
theorem unescape_escapeLiteral (value : Text) :
    unescape (escapeLiteral value) = replaceLookalikes value := by
  unfold unescape escapeLiteral replaceLookalikes
  dsimp only
  rw [Escape.replacePair_escape_quote (by decide) (by decide) _ (by decide),
    Escape.replacePair_escape_self (by decide),
    Escape.replacePair_escape_letter (by decide) (by decide) (by decide),
    Escape.replacePair_escape_letter (by decide) (by decide) (by decide),
    Escape.replacePair_escape_letter (by decide) (by decide) (by decide),
    Escape.escape_of_no_code]
  -- No two characters share a code, and the codes that are left are letters.
  all_goals grind [escapeCode_eq_some, Function.update_apply]

/-- A language tag; every tag of the grammar consists of letters, digits and hyphens. -/
structure LangTag where
  text : Text
  chars : ∀ c ∈ text, c.isAlphanum ∨ c = '-'

/-- What a literal carries besides its value. -/
inductive LiteralTag
  | plain
  | datatype (iri : Text)
  | lang (tag : LangTag)

namespace LiteralTag

def kind : LiteralTag → Kind
  | .plain => .literal
  | .datatype _ => .typedLiteral
  | .lang _ => .langLiteral

def datatypeIri : LiteralTag → Option Text
  | .datatype iri => some iri
  | _ => none

def langTag : LiteralTag → Option Text
  | .lang tag => some tag.text
  | _ => none

/-- What the writer puts after the closing quote. -/
def suffix : LiteralTag → Text
  | .plain => []
  | .datatype iri => "^^<".toList ++ iri ++ ['>']
  | .lang tag => '@' :: tag.text

end LiteralTag

/-- Reading what the writer wrote gives the same term. -/
def RoundTrips (value : Text) (kind : Kind) (datatype lang : Option Text) (id : Int) : Prop :=
  parseRdfTerm (formatNtriplesTerm value kind datatype lang id) = some (value, kind, datatype, lang)

instance (value : Text) (kind : Kind) (datatype lang : Option Text) (id : Int) :
    Decidable (RoundTrips value kind datatype lang id) :=
  inferInstanceAs (Decidable (_ = _))

/-- No backslash is followed by one of the letters that stand for a control character. -/
def NoLookalike (value : Text) : Prop :=
  ∀ k ∈ ['n', 'r', 't'], ¬ ['\\', k] <:+: value

theorem format_literal (value : Text) (a : LiteralTag) (id : Int) :
    formatNtriplesTerm value a.kind a.datatypeIri a.langTag id =
      '"' :: (escapeLiteral value ++ '"' :: a.suffix) := by
  cases a <;> simp [formatNtriplesTerm, LiteralTag.kind, LiteralTag.datatypeIri,
    LiteralTag.langTag, LiteralTag.suffix]

theorem trim_eq_self {first last : Char} {s : Text} (head : s.head? = some first)
    (tail : s.getLast? = some last) (hf : isWhitespace first = false)
    (hl : isWhitespace last = false) : trim s = s := by
  cases s with
  | nil => cases head
  | cons c cs =>
    cases head
    unfold trim
    rw [List.dropWhile_cons_of_neg (by simp [hf])]
    refine List.rdropWhile_eq_self_iff.mpr fun nonempty => ?_
    rw [List.getLast?_eq_getLast_of_ne_nil nonempty] at tail
    simpa [Option.some.inj tail] using hl

theorem isAlphanum_iff {c : Char} : c.isAlphanum = true ↔
    ((65 ≤ c.val ∧ c.val ≤ 90) ∨ (97 ≤ c.val ∧ c.val ≤ 122)) ∨ (48 ≤ c.val ∧ c.val ≤ 57) := by
  show ((decide (65 ≤ c.val ∧ c.val ≤ 90) || (decide (97 ≤ c.val) && decide (c.val ≤ 122))) ||
    (decide (48 ≤ c.val) && decide (c.val ≤ 57))) = true ↔ _
  simp only [Bool.or_eq_true, Bool.and_eq_true, decide_eq_true_eq]

theorem isWhitespace_alphanum {c : Char} (h : c.isAlphanum ∨ c = '-') :
    isWhitespace c = false := by
  obtain h | rfl := h
  · simp only [isAlphanum_iff, UInt32.le_iff_toNat_le] at h
    simp only [isWhitespace, Bool.or_eq_false_iff, Bool.and_eq_false_iff, decide_eq_false_iff_not,
      beq_eq_false_iff_ne, UInt32.le_iff_toNat_le, ne_eq, ← UInt32.toNat_inj]
    simp at h ⊢
    omega
  · rfl

theorem getLast?_cons_concat (c last : Char) (cs : Text) :
    (c :: (cs ++ [last])).getLast? = some last := by
  rw [← List.cons_append, List.getLast?_concat]

theorem getLast_suffix (a : LiteralTag) (front : Text) :
    ∃ last, (front ++ '"' :: a.suffix).getLast? = some last ∧ isWhitespace last = false := by
  cases a with
  | plain => exact ⟨'"', by simp [LiteralTag.suffix], rfl⟩
  | datatype iri => exact ⟨'>', by simp [LiteralTag.suffix, getLast?_cons_concat], rfl⟩
  | lang tag =>
    obtain nil | ⟨init, last, snoc⟩ := List.eq_nil_or_concat tag.text
    · exact ⟨'@', by simp [LiteralTag.suffix, nil], rfl⟩
    · refine ⟨last, by simp [LiteralTag.suffix, snoc, getLast?_cons_concat], ?_⟩
      exact isWhitespace_alphanum (tag.chars last (by simp [snoc]))

/-- Reading a written literal: everything but the value is as it was. -/
theorem parse_format_literal (value : Text) (a : LiteralTag) (id : Int) :
    parseRdfTerm (formatNtriplesTerm value a.kind a.datatypeIri a.langTag id) =
      some (replaceLookalikes value, a.kind, a.datatypeIri, a.langTag) := by
  rw [format_literal]
  obtain ⟨last, isLast, notSpace⟩ := getLast_suffix a ('"' :: escapeLiteral value)
  have trimmed : trim ('"' :: (escapeLiteral value ++ '"' :: a.suffix)) =
      '"' :: (escapeLiteral value ++ '"' :: a.suffix) :=
    trim_eq_self rfl isLast rfl notSpace
  have notBlank : ¬ "_:".toList.isPrefixOf ('"' :: (escapeLiteral value ++ '"' :: a.suffix)) := by
    intro isBlank
    cases isBlank
  unfold parseRdfTerm
  simp only [trimmed, if_neg notBlank, List.head?_cons, if_true, List.tail_cons,
    closingQuote_escapeLiteral, Option.map_some, unescape_escapeLiteral]
  cases a with
  | plain => simp [LiteralTag.suffix, LiteralTag.kind, LiteralTag.datatypeIri, LiteralTag.langTag]
  | datatype iri =>
    simp [LiteralTag.suffix, LiteralTag.kind, LiteralTag.datatypeIri, LiteralTag.langTag,
      getLast?_cons_concat]
  | lang tag => simp [LiteralTag.suffix, LiteralTag.kind, LiteralTag.datatypeIri,
      LiteralTag.langTag]

/-- Each replacement makes the text shorter if it does anything. -/
theorem length_replaceLookalikes_le (value : Text) :
    (replaceLookalikes value).length ≤ value.length :=
  calc
    _ ≤ (Escape.replacePair '\\' 'r' '\r' (Escape.replacePair '\\' 'n' '\n' value)).length :=
      Escape.length_replacePair_le _
    _ ≤ (Escape.replacePair '\\' 'n' '\n' value).length := Escape.length_replacePair_le _
    _ ≤ value.length := Escape.length_replacePair_le _

theorem noLookalike_of_length {value : Text}
    (length : (replaceLookalikes value).length = value.length) : NoLookalike value := by
  have lineFeeds : (Escape.replacePair '\\' 'n' '\n' value).length ≤ value.length :=
    Escape.length_replacePair_le value
  have returns : (Escape.replacePair '\\' 'r' '\r'
      (Escape.replacePair '\\' 'n' '\n' value)).length ≤
      (Escape.replacePair '\\' 'n' '\n' value).length := Escape.length_replacePair_le _
  have tabs : (replaceLookalikes value).length ≤ (Escape.replacePair '\\' 'r' '\r'
      (Escape.replacePair '\\' 'n' '\n' value)).length := Escape.length_replacePair_le _
  have noN : Escape.replacePair '\\' 'n' '\n' value = value :=
    Escape.replacePair_eq_self_of_length (by omega)
  rw [noN] at returns tabs
  have noR : Escape.replacePair '\\' 'r' '\r' value = value :=
    Escape.replacePair_eq_self_of_length (by omega)
  rw [replaceLookalikes, noN, noR] at length
  have noT : Escape.replacePair '\\' 't' '\t' value = value :=
    Escape.replacePair_eq_self_of_length length
  intro k hk
  simp only [List.mem_cons, List.not_mem_nil, or_false] at hk
  obtain rfl | rfl | rfl := hk
  · exact Escape.replacePair_eq_self_iff.mp noN
  · exact Escape.replacePair_eq_self_iff.mp noR
  · exact Escape.replacePair_eq_self_iff.mp noT

theorem replaceLookalikes_eq_self_iff (value : Text) :
    replaceLookalikes value = value ↔ NoLookalike value := by
  constructor
  · exact fun same => noLookalike_of_length (congrArg List.length same)
  · intro none
    have unchanged (k image : Char) (hk : k ∈ ['n', 'r', 't']) :
        Escape.replacePair '\\' k image value = value :=
      Escape.replacePair_eq_self_iff.mpr (none k hk)
    unfold replaceLookalikes
    rw [unchanged 'n' '\n' (by decide), unchanged 'r' '\r' (by decide),
      unchanged 't' '\t' (by decide)]

theorem parse_format_iri (iri : Text) (id : Int) : RoundTrips iri .iri none none id := by
  have last : ('<' :: iri ++ ['>']).getLast? = some '>' := getLast?_cons_concat '<' '>' iri
  have trimmed : trim ('<' :: iri ++ ['>']) = '<' :: iri ++ ['>'] :=
    trim_eq_self rfl last rfl rfl
  show parseRdfTerm ('<' :: iri ++ ['>']) = _
  unfold parseRdfTerm
  simp only [trimmed]
  rw [if_pos ⟨rfl, last⟩]
  simp

/-- A literal keeps its value, kind, datatype and language if and only if its value
contains no backslash in front of `n`, `r` or `t`; an IRI is always kept. -/
theorem rdfTerm_roundTrips_iff (value iri : Text) (a : LiteralTag) (id : Int) :
    (RoundTrips value a.kind a.datatypeIri a.langTag id ↔ NoLookalike value) ∧
      RoundTrips iri .iri none none id := by
  refine ⟨?_, parse_format_iri iri id⟩
  rw [← replaceLookalikes_eq_self_iff, RoundTrips, parse_format_literal]
  simp only [Option.some.injEq, Prod.mk.injEq, and_true]

/-- A Windows path: the backslash and the `n` come back as a line feed. -/
theorem not_rdfTerm_roundTrips :
    ¬ ∀ (value : Text) (a : LiteralTag) (id : Int),
      RoundTrips value a.kind a.datatypeIri a.langTag id := by
  intro all
  exact absurd (all "C:\\new".toList .plain 0) (by decide)

end PgRipple.Dictionary
