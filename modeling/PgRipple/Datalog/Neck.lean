import PgRipple.Sparql.Tokens
import Mathlib.Algebra.GroupWithZero.Nat
import Mathlib.Algebra.BigOperators.Group.List.Basic

/-!
# The neck of a rule

`find_neck` goes through the characters of a rule and counts them; `parse_rule` cuts the rule at
this number of bytes. Both mean the same position if and only if as many bytes as characters stand
before it. `find_neck` also pairs quotes blindly, and takes every `<` for the beginning of an IRI.
-/

namespace PgRipple.Datalog

open Dictionary (Text)

namespace Neck

/-- The flags of the loop. -/
structure Pairing where
  inLiteral : Bool
  inIri : Bool
  deriving DecidableEq

namespace Pairing

def clear : Pairing := ⟨false, false⟩

def next (p : Pairing) (c : Char) : Pairing :=
  if c = '"' then { p with inLiteral := !p.inLiteral }
  else if c = '<' ∧ ¬ p.inLiteral then { p with inIri := true }
  else if c = '>' ∧ ¬ p.inLiteral then { p with inIri := false }
  else p

/-- The flags after a text. -/
def after (p : Pairing) (s : Text) : Pairing := s.foldl next p

@[simp] theorem after_nil (p : Pairing) : p.after [] = p := rfl

@[simp] theorem after_cons (p : Pairing) (c : Char) (s : Text) :
    p.after (c :: s) = (p.next c).after s := rfl

@[simp] theorem next_colon (p : Pairing) : p.next ':' = p := rfl

end Pairing

/-- The loop, at the index `i`. -/
def findNeckFrom : (i : Nat) → Pairing → (previous : Option Char) → Text → Option Nat
  | _, _, _, [] => none
  | i, p, previous, c :: s =>
    if c = '-' ∧ p = .clear ∧ previous = some ':' then some (i - 1)
    else findNeckFrom (i + 1) (p.next c) (some c) s

def findNeck (text : Text) : Except Text Nat :=
  match findNeckFrom 0 .clear none text with
  | some i => .ok i
  | none => .error ("missing ':-' in rule: ".toList ++ text)

def byteLength (s : Text) : Nat := (s.map Char.utf8Size).sum

/-- `text[..n]` and `text[n..]`; `none` is a panic. -/
def splitAtByte : (n : Nat) → Text → Option (Text × Text)
  | 0, s => some ([], s)
  | _ + 1, [] => none
  | n + 1, c :: s =>
    if c.utf8Size ≤ n + 1 then
      (splitAtByte (n + 1 - c.utf8Size) s).map fun (front, rest) => (c :: front, rest)
    else none

/-- The head and the body that `parse_rule` goes on with, not yet trimmed. -/
def headAndBody (ruleBody : Text) : Option (Except Text (Text × Text)) :=
  match findNeck ruleBody with
  | .error e => some (.error e)
  | .ok sep =>
    (splitAtByte sep ruleBody).bind fun (head, _) =>
      (splitAtByte (sep + 2) ruleBody).map fun (_, body) => .ok (head, body)

inductive Place where
  | outside | literal | escaped | iri

/-- A `<` begins an IRI if characters of an IRI follow and then a `>`. -/
def opensIri (s : Text) : Bool := (s.dropWhile Sparql.Lexer.isIriChar).head? = some '>'

/-- The text before the first `:-` that is outside of literals and IRIs. -/
def beforeNeck : Place → Text → Option Text
  | _, [] => none
  | .outside, c :: s =>
    if c = ':' ∧ s.head? = some '-' then some []
    else
      let place :=
        if c = '"' then Place.literal else if c = '<' ∧ opensIri s then .iri else .outside
      (beforeNeck place s).map (c :: ·)
  | .literal, c :: s =>
    let place := if c = '\\' then Place.escaped else if c = '"' then .outside else .literal
    (beforeNeck place s).map (c :: ·)
  | .escaped, c :: s => (beforeNeck .literal s).map (c :: ·)
  | .iri, c :: s => (beforeNeck (if c = '>' then .outside else .iri) s).map (c :: ·)

/-- A rule with a neck is cut there, without a panic. -/
def SplitsAtNeck (ruleBody : Text) : Prop :=
  ∀ head, beforeNeck .outside ruleBody = some head →
    ∃ body, ruleBody = head ++ ':' :: '-' :: body ∧
      headAndBody ruleBody = some (.ok (head, body))

section Neck

variable {text head front s : Text} {p : Pairing} {previous : Option Char} {i k n : Nat}

/-- Blind pairing is outside after this text, and at no earlier `:-`. -/
structure Taken (p : Pairing) (front : Text) : Prop where
  outside : p.after front = .clear
  first : ∀ a b, front = a ++ ':' :: '-' :: b → p.after a ≠ .clear

theorem taken_nil : Taken p [] ↔ p = .clear := by
  refine ⟨fun h => h.outside, fun h => ⟨h, fun a b none' => ?_⟩⟩
  exact absurd none'.symm (by simp)

theorem taken_cons {c : Char} : Taken p (c :: front) ↔
    Taken (p.next c) front ∧ ¬ (c = ':' ∧ front.head? = some '-' ∧ p = .clear) := by
  constructor
  · intro h
    refine ⟨⟨h.outside, fun a b split => ?_⟩, ?_⟩
    · exact h.first (c :: a) b (by rw [split, List.cons_append])
    · rintro ⟨rfl, next, here⟩
      obtain ⟨b, rfl⟩ := List.head?_eq_some_iff.mp next
      exact h.first [] b rfl here
  · rintro ⟨h, other⟩
    refine ⟨h.outside, fun a b split => ?_⟩
    cases a with
    | nil =>
      obtain ⟨rfl, rfl⟩ := List.cons.inj split
      exact fun here => other ⟨rfl, rfl, here⟩
    | cons d a =>
      obtain ⟨rfl, rest⟩ := List.cons.inj split
      exact h.first a b rest

/-- The index that the loop returns: that of the colon before it, or of the first `:-` later. -/
theorem findNeckFrom_eq_some_iff : findNeckFrom i p previous s = some k ↔
    (previous = some ':' ∧ s.head? = some '-' ∧ p = .clear ∧ k = i - 1) ∨
      (¬ (previous = some ':' ∧ s.head? = some '-' ∧ p = .clear) ∧
        ∃ front rest, s = front ++ ':' :: '-' :: rest ∧ Taken p front ∧ k = i + front.length) := by
  induction s generalizing i p previous with
  | nil => simp [findNeckFrom]
  | cons c s ih =>
    rw [findNeckFrom, List.head?_cons]
    by_cases here : c = '-' ∧ p = .clear ∧ previous = some ':'
    · obtain ⟨rfl, clear, colon⟩ := here
      rw [if_pos ⟨rfl, clear, colon⟩, Option.some.injEq]
      constructor
      · exact fun same => .inl ⟨colon, rfl, clear, same.symm⟩
      · rintro (⟨-, -, -, same⟩ | ⟨other, -⟩)
        · exact same.symm
        · exact absurd ⟨colon, rfl, clear⟩ other
    · have other : ¬ (previous = some ':' ∧ some c = some '-' ∧ p = .clear) := by
        rintro ⟨colon, hyphen, clear⟩
        exact here ⟨Option.some.inj hyphen, clear, colon⟩
      rw [if_neg here, ih]
      constructor
      · rintro (⟨colon, hyphen, clear, rfl⟩ | ⟨miss, front, rest, rfl, taken, rfl⟩)
        · -- the `:-` begins at this character
          cases Option.some.inj colon
          obtain ⟨rest, rfl⟩ := List.head?_eq_some_iff.mp hyphen
          exact .inr ⟨other, [], rest, rfl, taken_nil.mpr clear, rfl⟩
        · refine .inr ⟨other, c :: front, rest, rfl, taken_cons.mpr ⟨taken, ?_⟩, ?_⟩
          · rintro ⟨rfl, hyphen, clear⟩
            refine miss ⟨rfl, ?_, clear⟩
            rw [List.head?_append, hyphen, Option.some_or]
          · rw [List.length_cons]
            omega
      · rintro (⟨colon, hyphen, clear, -⟩ | ⟨-, front, rest, split, taken, rfl⟩)
        · exact absurd ⟨colon, hyphen, clear⟩ other
        · cases front with
          | nil =>
            obtain ⟨rfl, rfl⟩ := List.cons.inj split
            exact .inl ⟨rfl, rfl, taken_nil.mp taken, rfl⟩
          | cons d front =>
            obtain ⟨rfl, rfl⟩ := List.cons.inj split
            obtain ⟨later, miss⟩ := taken_cons.mp taken
            refine .inr ⟨?_, front, rest, rfl, later, ?_⟩
            · rintro ⟨colon, hyphen, clear⟩
              cases Option.some.inj colon
              refine miss ⟨rfl, ?_, clear⟩
              cases front with
              | nil => cases Option.some.inj hyphen
              | cons d front => exact hyphen
            · rw [List.length_cons]
              omega

theorem findNeck_eq_ok_iff : findNeck text = .ok k ↔
    ∃ front rest, text = front ++ ':' :: '-' :: rest ∧ Taken .clear front ∧ front.length = k := by
  have found := @findNeckFrom_eq_some_iff text .clear none 0 k
  simp only [reduceCtorEq, false_and, false_or, not_false_iff, true_and, Nat.zero_add] at found
  unfold findNeck
  cases h : findNeckFrom 0 .clear none text with
  | none =>
    rw [h] at found
    simp only [reduceCtorEq, false_iff] at found ⊢
    rintro ⟨front, rest, split, taken, rfl⟩
    exact found ⟨front, rest, split, taken, rfl⟩
  | some i =>
    rw [h, Option.some.injEq] at found
    rw [Except.ok.injEq, found]
    constructor
    · rintro ⟨front, rest, split, taken, rfl⟩
      exact ⟨front, rest, split, taken, rfl⟩
    · rintro ⟨front, rest, split, taken, rfl⟩
      exact ⟨front, rest, split, taken, rfl⟩

@[simp] theorem byteLength_nil : byteLength [] = 0 := rfl

@[simp] theorem byteLength_cons (c : Char) (s : Text) :
    byteLength (c :: s) = c.utf8Size + byteLength s := by simp [byteLength]

@[simp] theorem byteLength_append (s t : Text) :
    byteLength (s ++ t) = byteLength s + byteLength t := by simp [byteLength]

theorem splitAtByte_eq_some_iff {rest : Text} :
    splitAtByte n s = some (front, rest) ↔ s = front ++ rest ∧ byteLength front = n := by
  induction s generalizing n front with
  | nil =>
    cases n with
    | zero =>
      rw [splitAtByte, Option.some.injEq, Prod.mk.injEq]
      constructor
      · rintro ⟨rfl, rfl⟩
        exact ⟨rfl, rfl⟩
      · rintro ⟨split, -⟩
        obtain ⟨rfl, rfl⟩ := List.append_eq_nil_iff.mp split.symm
        exact ⟨rfl, rfl⟩
    | succ n =>
      refine ⟨fun h => absurd h (by simp [splitAtByte]), ?_⟩
      rintro ⟨split, length⟩
      obtain ⟨rfl, rfl⟩ := List.append_eq_nil_iff.mp split.symm
      cases length
  | cons c s ih =>
    have pos := c.utf8Size_pos
    cases n with
    | zero =>
      rw [splitAtByte, Option.some.injEq, Prod.mk.injEq]
      constructor
      · rintro ⟨rfl, rfl⟩
        exact ⟨rfl, rfl⟩
      · rintro ⟨split, length⟩
        cases front with
        | nil => exact ⟨rfl, split⟩
        | cons d front =>
          have := d.utf8Size_pos
          rw [byteLength_cons] at length
          omega
    | succ n =>
      rw [splitAtByte]
      constructor
      · intro h
        split at h
        · obtain ⟨⟨a, b⟩, cut, same⟩ := Option.map_eq_some_iff.mp h
          obtain ⟨rfl, rfl⟩ := Prod.mk.inj same
          obtain ⟨rfl, length⟩ := ih.mp cut
          refine ⟨rfl, ?_⟩
          rw [byteLength_cons]
          omega
        · cases h
      · rintro ⟨split, length⟩
        cases front with
        | nil => cases length
        | cons d front =>
          obtain ⟨rfl, rfl⟩ := List.cons.inj split
          rw [byteLength_cons] at length
          rw [if_pos (by omega), ih.mpr ⟨rfl, by omega⟩]
          rfl

/-- `parse_rule` cuts at a `:-` if and only if `find_neck` returns the number of bytes before. -/
theorem headAndBody_eq_iff {body : Text} (split : text = head ++ ':' :: '-' :: body) :
    headAndBody text = some (.ok (head, body)) ↔ findNeck text = .ok (byteLength head) := by
  have colon : byteLength [':', '-'] = 2 := by decide
  have front : splitAtByte (byteLength head) text = some (head, ':' :: '-' :: body) :=
    splitAtByte_eq_some_iff.mpr ⟨split, rfl⟩
  have back : splitAtByte (byteLength head + 2) text = some (head ++ [':', '-'], body) := by
    refine splitAtByte_eq_some_iff.mpr ⟨?_, by rw [byteLength_append, colon]⟩
    rw [split, List.append_assoc]
    rfl
  unfold headAndBody
  cases found : findNeck text with
  | error e =>
    simp only [Option.some.injEq, reduceCtorEq]
  | ok sep =>
    dsimp only
    rw [Except.ok.injEq]
    constructor
    · intro h
      obtain ⟨⟨first, rest⟩, cut, h⟩ := Option.bind_eq_some_iff.mp h
      obtain ⟨⟨before, last⟩, -, same⟩ := Option.map_eq_some_iff.mp h
      obtain ⟨rfl, rfl⟩ := Prod.mk.inj (Except.ok.inj same)
      exact (splitAtByte_eq_some_iff.mp cut).2.symm
    · rintro rfl
      rw [front, Option.bind_some, back, Option.map_some]

/-- What stands before the neck is a part of the text. -/
theorem exists_of_beforeNeck {place : Place} (h : beforeNeck place text = some head) :
    ∃ body, text = head ++ ':' :: '-' :: body := by
  induction text generalizing place head with
  | nil =>
    cases place
    all_goals cases h
  | cons c s ih =>
    have later {place : Place} (h : (beforeNeck place s).map (c :: ·) = some head) :
        ∃ body, c :: s = head ++ ':' :: '-' :: body := by
      obtain ⟨head, found, rfl⟩ := Option.map_eq_some_iff.mp h
      obtain ⟨body, rfl⟩ := ih found
      exact ⟨body, rfl⟩
    cases place with
    | outside =>
      rw [beforeNeck] at h
      split at h
      · rename_i neck
        obtain ⟨rfl, hyphen⟩ := neck
        obtain ⟨body, rfl⟩ := List.head?_eq_some_iff.mp hyphen
        rw [← Option.some.inj h]
        exact ⟨body, rfl⟩
      · exact later h
    | literal => exact later h
    | escaped => exact later h
    | iri => exact later h

/-- The rule is cut at its neck if and only if the first `:-` after blind pairing comes after as
many characters as there are bytes before the neck. -/
theorem splitsAtNeck_iff (ruleBody : Text) : SplitsAtNeck ruleBody ↔
    ∀ head, beforeNeck .outside ruleBody = some head →
      ∃ front rest, ruleBody = front ++ ':' :: '-' :: rest ∧ Taken .clear front ∧
        front.length = byteLength head := by
  refine forall₂_congr fun head neck => ?_
  rw [← findNeck_eq_ok_iff]
  obtain ⟨body, split⟩ := exists_of_beforeNeck neck
  constructor
  · rintro ⟨other, split', cut⟩
    exact (headAndBody_eq_iff split').mp cut
  · exact fun found => ⟨body, split, (headAndBody_eq_iff split).mpr found⟩

theorem byteLength_eq_length_iff : byteLength s = s.length ↔ ∀ c ∈ s, c.utf8Size = 1 := by
  have le (t : Text) : t.length ≤ byteLength t := by
    induction t with
    | nil => exact Nat.le_refl 0
    | cons c t ih =>
      have := c.utf8Size_pos
      rw [byteLength_cons, List.length_cons]
      omega
  induction s with
  | nil => simp
  | cons c s ih =>
    have here := c.utf8Size_pos
    have later := le s
    rw [byteLength_cons, List.length_cons, List.forall_mem_cons]
    constructor
    · exact fun h => ⟨by omega, ih.mp (by omega)⟩
    · rintro ⟨one, rest⟩
      have := ih.mpr rest
      omega

/-- A cut inside a character, which panics. -/
theorem not_splitsAtNeck :
    ¬ SplitsAtNeck "?x <p> \"日本語\":-?x <q> ?y".toList ∧
      headAndBody "?x <p> \"日本語\":-?x <q> ?y".toList = none := by
  have panics : headAndBody "?x <p> \"日本語\":-?x <q> ?y".toList = none := by
    rw [← Option.isNone_iff_eq_none]
    decide
  refine ⟨fun h => ?_, panics⟩
  obtain ⟨body, -, cut⟩ := h "?x <p> \"日本語\"".toList (by decide)
  rw [panics] at cut
  cases cut

end Neck

end Neck

end PgRipple.Datalog
