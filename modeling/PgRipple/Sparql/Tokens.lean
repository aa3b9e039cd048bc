import PgRipple.Dictionary.Term

/-!
# The tokens of a SPARQL text

The lexical grammar of SPARQL 1.1: at each position the longest terminal that matches, where a
character that begins none is a token by itself. `lex` gives the tokens of any text, and their
texts together are the text again.
-/

namespace PgRipple.Sparql

open Dictionary (Text)

namespace Lexer

inductive Kind where
  | blank | comment | iri | literal | variable | name | languageTag | number | word | other
  deriving DecidableEq

def isBlank (c : Char) : Bool := c = ' ' || c = '\t' || c = '\n' || c = '\r'

/-- `PN_CHARS_BASE`. -/
def isNameBase (c : Char) : Bool :=
  c.isAlpha || [(0xC0, 0xD6), (0xD8, 0xF6), (0xF8, 0x2FF), (0x370, 0x37D), (0x37F, 0x1FFF),
    (0x200C, 0x200D), (0x2070, 0x218F), (0x2C00, 0x2FEF), (0x3001, 0xD7FF), (0xF900, 0xFDCF),
    (0xFDF0, 0xFFFD), (0x10000, 0xEFFFF)].any fun r => r.1 ≤ c.toNat && c.toNat ≤ r.2

/-- `PN_CHARS_U`, or a digit. -/
def isNameStart (c : Char) : Bool := isNameBase c || c = '_' || c.isDigit

/-- The later characters of a variable. -/
def isVariableChar (c : Char) : Bool :=
  isNameStart c || c.toNat = 0xB7 || (0x300 ≤ c.toNat && c.toNat ≤ 0x36F) ||
    (0x203F ≤ c.toNat && c.toNat ≤ 0x2040)

/-- `PN_CHARS`. -/
def isNameChar (c : Char) : Bool := isVariableChar c || c = '-'

/-- A character inside `IRIREF`. -/
def isIriChar (c : Char) : Bool := ' ' < c && c ∉ "<>\"\x7b\x7d|^`\\".toList

def isHex (c : Char) : Bool := c.isDigit || c ∈ "abcdefABCDEF".toList

-- Each function returns the length of the terminal at the beginning of a text, without what the
-- caller has read.

/-- The rest of a literal between single quotes `q`. -/
def shortLiteral (q : Char) : Text → Option Nat
  | '\\' :: c :: s => if c ∈ "tbnrf\"'\\uU".toList then (shortLiteral q s).map (· + 2) else none
  | c :: s =>
    if c = q then some 1
    else if c = '\\' ∨ c = '\n' ∨ c = '\r' then none
    else (shortLiteral q s).map (· + 1)
  | [] => none

/-- The rest of a literal between three quotes. -/
def longLiteral (q : Char) : Text → Option Nat
  | '\\' :: c :: s => if c ∈ "tbnrf\"'\\uU".toList then (longLiteral q s).map (· + 2) else none
  | c :: s =>
    if [c] ++ s.take 2 = [q, q, q] then some 3
    else if c = '\\' then none
    else (longLiteral q s).map (· + 1)
  | [] => none

/-- The rest of a literal after its first quote. -/
def literal (q : Char) (s : Text) : Option Nat :=
  if s.take 2 = [q, q] then
    match longLiteral q (s.drop 2) with
    | some n => some (n + 2)
    | none => shortLiteral q s
  else shortLiteral q s

/-- The later characters of `PN_LOCAL`; it does not end with a point. -/
def localTail : Text → Nat
  | '.' :: s => if localTail s = 0 then 0 else localTail s + 1
  | '%' :: a :: b :: s => if isHex a ∧ isHex b then localTail s + 3 else 0
  | '\\' :: c :: s => if c ∈ "_~.-!$&'()*+,;=/?#@%".toList then localTail s + 2 else 0
  | c :: s => if isNameChar c ∨ c = ':' then localTail s + 1 else 0
  | [] => 0

/-- `PN_LOCAL`, which may be missing. -/
def localName (s : Text) : Nat :=
  match s with
  | c :: _ =>
    if isNameStart c ∨ c = ':' ∨ c = '%' ∨ c = '\\' then localTail s else 0
  | [] => 0

/-- Characters of a prefix or of a blank node label; the last one is no point. -/
def dotted : Text → Nat
  | '.' :: s => if dotted s = 0 then 0 else dotted s + 1
  | c :: s => if isNameChar c then dotted s + 1 else 0
  | [] => 0

/-- `LANGTAG` after the sign. -/
def languageTag : Text → Nat
  | s =>
    let primary := (s.takeWhile Char.isAlpha).length
    if primary = 0 then 0
    else primary + subtags (s.dropWhile Char.isAlpha)
where
  /-- Subtags, each after a hyphen. -/
  subtags : Text → Nat
    | '-' :: c :: s => if c.isAlphanum then subtags (c :: s) + 1 else 0
    | c :: s => if c.isAlphanum then subtags s + 1 else 0
    | [] => 0

/-- The exponent of a double, if there is one. -/
def exponent (s : Text) : Nat :=
  let digits := fun t : Text => (t.takeWhile Char.isDigit).length
  match s with
  | e :: t =>
    if e = 'e' ∨ e = 'E' then
      match t with
      | sign :: u =>
        if sign = '+' ∨ sign = '-' then if digits u = 0 then 0 else digits u + 2
        else if digits t = 0 then 0 else digits t + 1
      | [] => 0
    else 0
  | [] => 0

/-- An unsigned number that begins with a digit, or with a point before a digit. -/
def number (s : Text) : Nat :=
  let whole := (s.takeWhile Char.isDigit).length
  match s.dropWhile Char.isDigit with
  | '.' :: t =>
    let fraction := (t.takeWhile Char.isDigit).length
    let power := exponent (t.dropWhile Char.isDigit)
    if fraction ≠ 0 ∨ (whole ≠ 0 ∧ power ≠ 0) then whole + 1 + fraction + power else whole
  | t => if whole = 0 then 0 else whole + exponent t

/-- A prefixed name or, without a colon, a word of ASCII letters, digits and underscores. -/
def nameOrWord (s : Text) : Kind × Nat :=
  let front := dotted s
  match s.drop front with
  | ':' :: t => (.name, front + 1 + localName t)
  | _ => (.word, (s.takeWhile fun c => c.isAlphanum || c = '_').length)

/-- The kind and the length of the first token. -/
def first (c : Char) (s : Text) : Kind × Nat :=
  if isBlank c then (.blank, 1 + (s.takeWhile isBlank).length)
  else if c = '#' then (.comment, 1 + (s.takeWhile fun c => c ≠ '\n' && c ≠ '\r').length)
  else if c = '<' then
    match s.dropWhile isIriChar with
    | '>' :: _ => (.iri, (s.takeWhile isIriChar).length + 2)
    | _ => (.other, 1)
  else if c = '"' ∨ c = '\'' then
    match literal c s with
    | some n => (.literal, n + 1)
    | none => (.other, 1)
  else if c = '?' ∨ c = '$' then
    if s.head?.any isNameStart then (.variable, 1 + (s.takeWhile isVariableChar).length)
    else (.other, 1)
  else if c = '@' then
    if languageTag s = 0 then (.other, 1) else (.languageTag, languageTag s + 1)
  else if c = '_' ∧ s.head? = some ':' then
    if s.tail.head?.any isNameStart then (.name, 2 + dotted s.tail) else (.other, 1)
  else if c = ':' then (.name, 1 + localName s)
  else if isNameBase c then nameOrWord (c :: s)
  else if number (c :: s) ≠ 0 then (.number, number (c :: s))
  else (.other, 1)

structure Token where
  kind : Kind
  text : Text
  deriving DecidableEq

/-- Every token takes a character at least. -/
def lexFrom : (fuel : Nat) → Text → List Token
  | fuel + 1, c :: s =>
    let (kind, n) := first c s
    ⟨kind, (c :: s).take (max n 1)⟩ :: lexFrom fuel ((c :: s).drop (max n 1))
  | _, _ => []

/-- The tokens of a text. -/
def lex (s : Text) : List Token := lexFrom s.length s

/-- The tokens together are the text. -/
theorem flatMap_lex (s : Text) : (lex s).flatMap Token.text = s := by
  have whole (fuel : Nat) (s : Text) (enough : s.length ≤ fuel) :
      (lexFrom fuel s).flatMap Token.text = s := by
    induction fuel generalizing s with
    | zero =>
      rw [List.length_eq_zero_iff.mp (Nat.le_zero.mp enough)]
      rfl
    | succ fuel ih =>
      cases s with
      | nil => rfl
      | cons c s =>
        have shorter : ((c :: s).drop (max (first c s).2 1)).length ≤ fuel := by
          rw [List.length_drop]
          have least : 1 ≤ max (first c s).2 1 := Nat.le_max_right _ _
          omega
        rw [lexFrom, List.flatMap_cons, ih _ shorter, List.take_append_drop]
  exact whole s.length s (Nat.le_refl _)

example : (lex "SELECT (MODE (?x) AS ?m) \x7b ?s ex:a-mode 'x\\'y' \x7d".toList).map Token.kind =
    [.word, .blank, .other, .word, .blank, .other, .variable, .other, .blank, .word, .blank,
      .variable, .other, .blank, .other, .blank, .variable, .blank, .name, .blank, .literal,
      .blank, .other] := by
  decide

end Lexer

end PgRipple.Sparql
