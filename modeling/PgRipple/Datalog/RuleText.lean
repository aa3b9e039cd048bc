import PgRipple.Datalog.Lexer

/-!
# Rule texts in the documented syntax

A rule is written as pieces: words, IRIs in angle brackets, string literals with backslash
escapes, decimal numbers, comparisons, brackets and commas, with blanks and line comments
between them. A period ends it, and a weight may stand before the period.

The pieces say what each character is for, so a list of rules is a marked text. The two
splitters read it as it was written if and only if its marks agree with the way they pair
quotes and angle brackets.
-/

namespace PgRipple.Datalog

open Dictionary (Text trim isWhitespace)
open Marks (Role entries)

namespace RuleText

/-- A character of variables, keywords, prefixed names, integers, `:-` and the like. -/
abbrev PlainChar :=
  { c : Char // c ∉ ['"', '<', '>', '.', '#', ',', '(', ')', '{', '}'] }

/-- A character of an `IRIREF`. -/
abbrev IriChar :=
  { c : Char // 0x20 < c.val ∧ c.val ≠ 0x60 ∧ c ∉ ['<', '>', '"', '{', '}', '|', '^', '\\'] }

/-- A character of a string literal, or a backslash with the character after it. -/
inductive StringChar where
  | plain (c : { c : Char // c ≠ '"' ∧ c ≠ '\\' })
  | escaped (c : Char)

abbrev Digit := { c : Char // c.isDigit = true }

/-- Blanks, and comments to the end of the line. -/
inductive Trivia where
  | space (c : { c : Char // isWhitespace c = true })
  | comment (cs : { cs : Text // '\n' ∉ cs })

inductive Piece where
  | trivia (t : Trivia)
  | word (cs : List PlainChar)
  | iri (cs : List IriChar)
  | literal (cs : List StringChar)
  | decimal (d : Digit) (whole : List Digit) (e : Digit) (fraction : List Digit)
  /-- `<` and `<=`. -/
  | less (orEqual : Bool)
  /-- `>` and `>=`. -/
  | greater (orEqual : Bool)
  | opening (brace : Bool)
  | closing (brace : Bool)
  | comma

/-- A weight between `0` and `1`. -/
inductive Weight where
  | zero (fraction : List Digit)
  | one (zeros : Nat)

def kept (text : Text) : List (Char × Role) := text.map fun c => (c, .kept)

def skipped (text : Text) : List (Char × Role) := text.map fun c => (c, .skipped)

def Trivia.marks : Trivia → List (Char × Role)
  | .space c => kept [c.val]
  | .comment cs => skipped ('#' :: cs.val) ++ kept ['\n']

def StringChar.text : StringChar → Text
  | .plain c => [c.val]
  | .escaped c => ['\\', c]

/-- The characters of a piece that is not trivia. -/
def Piece.text : Piece → Text
  | .trivia _ => []
  | .word cs => cs.map Subtype.val
  | .iri cs => '<' :: cs.map Subtype.val ++ ['>']
  | .literal cs => '"' :: cs.flatMap StringChar.text ++ ['"']
  | .decimal d whole e fraction =>
    d.val :: whole.map Subtype.val ++ '.' :: e.val :: fraction.map Subtype.val
  | .less orEqual => if orEqual then ['<', '='] else ['<']
  | .greater orEqual => if orEqual then ['>', '='] else ['>']
  | .opening brace => if brace then ['{'] else ['(']
  | .closing brace => if brace then ['}'] else [')']
  | .comma => [',']

def Piece.marks : Piece → List (Char × Role)
  | .trivia t => t.marks
  | p => kept p.text

def marks (ps : List Piece) : List (Char × Role) := ps.flatMap Piece.marks

def Weight.number : Weight → Text
  | .zero [] => ['0']
  | .zero fraction => '0' :: '.' :: fraction.map Subtype.val
  | .one 0 => ['1']
  | .one zeros => '1' :: '.' :: List.replicate zeros '0'

/-- `@weight(x)`. -/
def Weight.text (w : Weight) : Text :=
  ['@', 'w', 'e', 'i', 'g', 'h', 't', '('] ++ w.number ++ [')']

/-- Brackets are balanced, and commas only stand between brackets. -/
def Nested : (depth : Nat) → List Piece → Prop
  | n, [] => n = 0
  | n, .opening _ :: ps => Nested (n + 1) ps
  | n, .closing _ :: ps => 0 < n ∧ Nested (n - 1) ps
  | n, .comma :: ps => 0 < n ∧ Nested n ps
  | n, _ :: ps => Nested n ps

/-- A literal of a body. -/
structure LiteralText where
  pieces : List Piece
  nested : Nested 0 pieces
  solid : Marks.Solid isWhitespace (Marks.plain (marks pieces))

/-- `head :- body .`; a constraint has an empty head. -/
structure RuleSource where
  head : List Piece
  body : List LiteralText
  nonempty : body ≠ []
  weight : Option Weight
  trailer : List Trivia

namespace LiteralText

def text (l : LiteralText) : Text := Marks.plain (marks l.pieces)

end LiteralText

/-- The literals of a body with what stands between them. -/
def joined (comma : Role) : List (List (Char × Role)) → List (Char × Role)
  | [] => []
  | [ms] => ms
  | ms :: rest => ms ++ (',', comma) :: joined comma rest

namespace RuleSource

/-- The rule without its period. -/
def front (r : RuleSource) : List (Char × Role) :=
  marks r.head ++ kept [':', '-'] ++ joined .kept (r.body.map fun l => marks l.pieces) ++
    kept (r.weight.elim [] Weight.text) ++ r.trailer.flatMap Trivia.marks

def marks (r : RuleSource) : List (Char × Role) := r.front ++ [('.', .stop)]

/-- The entry that the rule should become. -/
def text (r : RuleSource) : Text := trim (Marks.plain r.front)

/-- The body as `split_body` receives it, without comments; its commas separate. -/
def bodyMarks (r : RuleSource) : List (Char × Role) :=
  joined .stop (r.body.map fun l => kept l.text)

def bodyText (r : RuleSource) : Text := r.bodyMarks.map Prod.fst

end RuleSource

/-- A list of rules, and what follows the last period. -/
def sourceMarks (rules : List RuleSource) (rest : List Trivia) : List (Char × Role) :=
  rules.flatMap RuleSource.marks ++ rest.flatMap Trivia.marks

def sourceText (rules : List RuleSource) (rest : List Trivia) : Text :=
  (sourceMarks rules rest).map Prod.fst

/-- One entry for each rule, and the literals of each body. -/
def SplitsAsWritten (rules : List RuleSource) (rest : List Trivia) : Prop :=
  Lexer.tokenizeRules (sourceText rules rest) = rules.map RuleSource.text ∧
    ∀ r ∈ rules, Lexer.splitBody r.bodyText = r.body.map fun l => trim l.text

section Kept

variable {current cs : Text} {ms ms' : List (Char × Role)}

theorem plain_kept (cs : Text) : Marks.plain (kept cs) = cs := by
  rw [Marks.plain, kept, List.filterMap_map]
  exact List.filterMap_some

theorem plain_skipped (cs : Text) : Marks.plain (skipped cs) = [] := by
  rw [Marks.plain, skipped, List.filterMap_map, List.filterMap_eq_nil_iff]
  exact fun _ _ => rfl

theorem noStop_kept (cs : Text) : Marks.NoStop (kept cs) := by
  intro m mem
  obtain ⟨c, -, rfl⟩ := List.mem_map.mp mem
  exact Role.noConfusion

/-- Kept characters of an entry that has begun, or without periods and comment signs. -/
theorem proper_kept (h : Marks.Solid isWhitespace current ∨ ∀ c ∈ cs, c ≠ '.' ∧ c ≠ '#') :
    Marks.Proper isWhitespace '.' '#' current (kept cs) := by
  induction cs generalizing current with
  | nil => trivial
  | cons c cs ih =>
    refine ⟨?_, ih ?_⟩
    · intro special
      refine h.resolve_right fun none => ?_
      obtain ⟨notPeriod, notHash⟩ := none c List.mem_cons_self
      exact special.elim notPeriod notHash
    · obtain ⟨d, mem, solid⟩ | none := h
      · exact .inl ⟨d, List.mem_append_left [c] mem, solid⟩
      · exact .inr fun d mem => none d (List.mem_cons_of_mem c mem)

/-- Kept characters that begin with one that is not blank. -/
theorem proper_kept_cons {c : Char} (solid : isWhitespace c = false) (plain : c ≠ '.' ∧ c ≠ '#') :
    Marks.Proper isWhitespace '.' '#' current (kept (c :: cs)) :=
  ⟨fun special => (special.elim plain.1 plain.2).elim,
    proper_kept (.inl (Marks.solid_append_cons solid))⟩

theorem lined_kept (later : Marks.Lined '.' '#' '\n' false ms) :
    Marks.Lined '.' '#' '\n' false (kept cs ++ ms) := by
  induction cs with
  | nil => exact later
  | cons c cs ih => exact ih

end Kept

theorem ne_of_blank {c d : Char} (blank : isWhitespace c = true) (solid : isWhitespace d = false) :
    c ≠ d := by
  rintro rfl
  exact Bool.false_ne_true (solid.symm.trans blank)

/-- Marks that can stand anywhere in an entry. -/
structure Fragment (ms : List (Char × Role)) : Prop where
  noStop : Marks.NoStop ms
  proper : ∀ current, Marks.Proper isWhitespace '.' '#' current ms
  lined : ∀ ms', Marks.Lined '.' '#' '\n' false ms' → Marks.Lined '.' '#' '\n' false (ms ++ ms')

namespace Fragment

variable {ms ms' : List (Char × Role)} {cs : Text} {c : Char}

theorem nil : Fragment [] := ⟨fun _ => List.not_mem_nil.elim, fun _ => trivial,
    fun _ later => later⟩

theorem append (h : Fragment ms) (h' : Fragment ms') : Fragment (ms ++ ms') where
  noStop := Marks.noStop_append.mpr ⟨h.noStop, h'.noStop⟩
  proper current := (h.proper current).append h.noStop (h'.proper _)
  lined ms'' later := by
    rw [List.append_assoc]
    exact h.lined _ (h'.lined ms'' later)

theorem flatMap {β : Type} {f : β → List (Char × Role)} {xs : List β}
    (h : ∀ x ∈ xs, Fragment (f x)) : Fragment (xs.flatMap f) := by
  induction xs with
  | nil => exact nil
  | cons x xs ih =>
    obtain ⟨here, later⟩ := List.forall_mem_cons.mp h
    exact here.append (ih later)

theorem kept_plain (h : ∀ c ∈ cs, c ≠ '.' ∧ c ≠ '#') : Fragment (kept cs) :=
  ⟨noStop_kept cs, fun _ => proper_kept (.inr h), fun _ => lined_kept⟩

theorem kept_cons (solid : isWhitespace c = false) (plain : c ≠ '.' ∧ c ≠ '#') :
    Fragment (kept (c :: cs)) :=
  ⟨noStop_kept _, fun _ => proper_kept_cons solid plain, fun _ => lined_kept⟩

theorem comment (line : '\n' ∉ cs) : Fragment (skipped ('#' :: cs) ++ kept ['\n']) where
  noStop := by
    refine Marks.noStop_append.mpr ⟨?_, noStop_kept _⟩
    intro m mem
    obtain ⟨c, -, rfl⟩ := List.mem_map.mp mem
    exact Role.noConfusion
  proper current := by
    have skip (cs : Text) (ms : List (Char × Role))
        (later : Marks.Proper isWhitespace '.' '#' current ms) :
        Marks.Proper isWhitespace '.' '#' current (skipped cs ++ ms) := by
      induction cs with
      | nil => exact later
      | cons c cs ih => exact ih
    apply skip
    exact proper_kept (.inr (List.forall_mem_singleton.mpr (by decide)))
  lined ms' later := by
    have rest : Marks.Lined '.' '#' '\n' true (skipped cs ++ (kept ['\n'] ++ ms')) := by
      induction cs with
      | nil => exact ⟨rfl, later⟩
      | cons c cs ih =>
        obtain ⟨here, others⟩ := not_or.mp fun h => line (List.mem_cons.mpr h)
        show Marks.Lined '.' '#' '\n' true ((c, .skipped) :: (skipped cs ++ (kept ['\n'] ++ ms')))
        rw [Marks.Lined, if_neg (Ne.symm here)]
        exact ⟨rfl, ih others⟩
    rw [List.append_assoc]
    exact ⟨rfl, rest⟩

theorem trivia (t : Trivia) : Fragment t.marks := by
  cases t with
  | space c =>
    refine kept_plain fun d mem => ?_
    obtain rfl := List.mem_singleton.mp mem
    exact ⟨ne_of_blank c.property rfl, ne_of_blank c.property rfl⟩
  | comment cs => exact comment cs.property

theorem digit (d : Digit) (cs : Text) : Fragment (kept (d.val :: cs)) := by
  have isDigit := d.property
  refine kept_cons (Dictionary.isWhitespace_alphanum (.inl ?_)) ⟨?_, ?_⟩
  · rw [Char.isAlphanum, isDigit, Bool.or_true]
  · intro period
    rw [period] at isDigit
    cases isDigit
  · intro hash
    rw [hash] at isDigit
    cases isDigit

theorem piece (p : Piece) : Fragment p.marks := by
  cases p with
  | trivia t => exact trivia t
  | word cs =>
    refine kept_plain fun c mem => ?_
    obtain ⟨c, -, rfl⟩ := List.mem_map.mp mem
    have plain := c.property
    simp only [List.mem_cons, not_or] at plain
    exact ⟨plain.2.2.2.1, plain.2.2.2.2.1⟩
  | iri cs => exact kept_cons rfl (by decide)
  | literal cs => exact kept_cons rfl (by decide)
  | decimal d whole e fraction => exact digit d _
  | less orEqual => cases orEqual <;> exact kept_cons rfl (by decide)
  | greater orEqual => cases orEqual <;> exact kept_cons rfl (by decide)
  | opening brace => cases brace <;> exact kept_cons rfl (by decide)
  | closing brace => cases brace <;> exact kept_cons rfl (by decide)
  | comma => exact kept_cons rfl (by decide)

theorem pieces (ps : List Piece) : Fragment (marks ps) := flatMap fun p _ => piece p

theorem joined {parts : List (List (Char × Role))} (h : ∀ ms ∈ parts, Fragment ms) :
    Fragment (RuleText.joined .kept parts) := by
  induction parts with
  | nil => exact nil
  | cons ms rest ih =>
    obtain ⟨here, later⟩ := List.forall_mem_cons.mp h
    cases rest with
    | nil => exact here
    | cons ms' rest =>
      have separator : Fragment (kept [',']) := kept_cons rfl (by decide)
      exact here.append (separator.append (ih later))

theorem front (r : RuleSource) : Fragment r.front := by
  refine (((append (pieces _) (kept_cons rfl (by decide))).append (joined ?_)).append ?_).append ?_
  · intro ms mem
    obtain ⟨l, -, rfl⟩ := List.mem_map.mp mem
    exact pieces _
  · cases r.weight with
    | none => exact nil
    | some w => exact kept_cons rfl (by decide)
  · exact flatMap fun t _ => trivia t

end Fragment

section Entries

variable {rules : List RuleSource} {rest : List Trivia}

theorem fragment_rest (rest : List Trivia) : Fragment (rest.flatMap Trivia.marks) :=
  .flatMap fun t _ => .trivia t

theorem solid_front (r : RuleSource) : Marks.Solid isWhitespace (Marks.plain r.front) := by
  refine ⟨':', ?_, rfl⟩
  simp only [RuleSource.front, Marks.plain_append, List.mem_append]
  exact .inl (.inl (.inl (.inr (by decide))))

theorem cons_sourceMarks (r : RuleSource) (rules : List RuleSource) (rest : List Trivia) :
    sourceMarks (r :: rules) rest = r.front ++ ('.', .stop) :: sourceMarks rules rest := by
  rw [sourceMarks, sourceMarks, List.flatMap_cons, RuleSource.marks, List.append_assoc,
    List.append_assoc]
  rfl

theorem lined_sourceMarks (rules : List RuleSource) (rest : List Trivia) :
    Marks.Lined '.' '#' '\n' false (sourceMarks rules rest) := by
  induction rules with
  | nil =>
    have := (fragment_rest rest).lined [] trivial
    rwa [List.append_nil] at this
  | cons r rules ih =>
    rw [cons_sourceMarks]
    exact (Fragment.front r).lined _ ⟨rfl, ih⟩

theorem proper_sourceMarks (rules : List RuleSource) (rest : List Trivia) :
    Marks.Proper isWhitespace '.' '#' [] (sourceMarks rules rest) := by
  induction rules with
  | nil => exact (fragment_rest rest).proper []
  | cons r rules ih =>
    rw [cons_sourceMarks]
    exact ((Fragment.front r).proper []).append (Fragment.front r).noStop ⟨solid_front r, ih⟩

/-- Blanks are left of what follows the last period. -/
theorem not_solid_rest (rest : List Trivia) :
    ¬ Marks.Solid isWhitespace (Marks.plain (rest.flatMap Trivia.marks)) := by
  induction rest with
  | nil => exact fun ⟨c, mem, _⟩ => nomatch mem
  | cons t rest ih =>
    rw [List.flatMap_cons, Marks.plain_append]
    rintro ⟨c, mem, solid⟩
    obtain here | later := List.mem_append.mp mem
    · cases t with
      | space d =>
        obtain rfl := List.mem_singleton.mp here
        rw [d.property] at solid
        cases solid
      | comment cs =>
        rw [Trivia.marks, Marks.plain_append, plain_skipped, plain_kept, List.nil_append] at here
        obtain rfl := List.mem_singleton.mp here
        cases solid
    · exact ih ⟨c, later, solid⟩

theorem entries_sourceMarks (rules : List RuleSource) (rest : List Trivia) :
    entries isWhitespace false [] (sourceMarks rules rest) = rules.map RuleSource.text := by
  induction rules with
  | nil =>
    rw [sourceMarks, List.flatMap_nil, List.nil_append,
      ← List.append_nil (rest.flatMap Trivia.marks),
        Marks.entries_append (fragment_rest rest).noStop,
      List.nil_append, entries, Marks.push,
      if_pos ⟨Marks.strip_eq_nil_iff.mpr (not_solid_rest rest), rfl⟩]
    rfl
  | cons r rules ih =>
    rw [cons_sourceMarks, Marks.entries_append (Fragment.front r).noStop, List.nil_append, entries,
      Marks.push_of_solid (solid_front r), ih]
    rfl

/-- The parts of a body are its literals. -/
theorem entries_bodyMarks (r : RuleSource) :
    entries isWhitespace true [] r.bodyMarks = r.body.map fun l => trim l.text := by
  have go (ls : List LiteralText) (nonempty : ls ≠ []) :
      entries isWhitespace true [] (joined .stop (ls.map fun l => kept l.text)) =
        ls.map fun l => trim l.text := by
    induction ls with
    | nil => exact absurd rfl nonempty
    | cons l ls ih =>
      cases ls with
      | nil =>
        show entries isWhitespace true [] (kept l.text) = [trim l.text]
        rw [← List.append_nil (kept l.text), Marks.entries_append (noStop_kept _), plain_kept,
          List.nil_append, entries]
        exact Marks.push_of_solid l.solid
      | cons l' ls =>
        show entries isWhitespace true [] (kept l.text ++ (',', .stop) :: _) = _
        rw [Marks.entries_append (noStop_kept _), plain_kept, List.nil_append, entries,
          Marks.push_true]
        exact congrArg _ (ih (List.cons_ne_nil _ _))
  exact go r.body r.nonempty

theorem commas_bodyMarks (r : RuleSource) : Lexer.Nesting.Commas r.bodyMarks := by
  have go (ls : List LiteralText) :
      Lexer.Nesting.Commas (joined .stop (ls.map fun l => kept l.text)) := by
    induction ls with
    | nil => exact fun _ => List.not_mem_nil.elim
    | cons l ls ih =>
      have here : Lexer.Nesting.Commas (kept l.text) := by
        intro m mem
        obtain ⟨c, -, rfl⟩ := List.mem_map.mp mem
        exact .inl rfl
      cases ls with
      | nil => exact here
      | cons l' ls =>
        exact List.forall_mem_append.mpr
          ⟨here, List.forall_mem_cons.mpr ⟨.inr ⟨rfl, rfl⟩, ih⟩⟩
  exact go r.body

/-- Rules in the documented syntax are split as written if and only if periods and comments
stand outside of the stretches between quotes and angle brackets, other periods and comment
signs inside, and the separating commas are the top-level ones of `split_body`. -/
theorem splitsAsWritten_iff (rules : List RuleSource) (rest : List Trivia) :
    SplitsAsWritten rules rest ↔ Lexer.Stretch.outside.Agrees (sourceMarks rules rest) ∧
      ∀ r ∈ rules, Lexer.Nesting.start.Agrees r.bodyMarks := by
  refine and_congr ?_ (forall₂_congr fun r _ => ?_)
  · rw [← entries_sourceMarks rules rest, sourceText]
    exact Lexer.tokenizeRules_eq_entries_iff (lined_sourceMarks rules rest)
      (proper_sourceMarks rules rest)
  · rw [← entries_bodyMarks, RuleSource.bodyText]
    exact Lexer.splitBody_eq_entries_iff (commas_bodyMarks r)

end Entries

section Example

/-- `?x`. -/
def varX : Piece := .word [⟨'?', by decide⟩, ⟨'x', by decide⟩]

def blankPiece : Piece := .trivia (.space ⟨' ', rfl⟩)

/-- `?x <p> ?x`. -/
def atomX : List Piece := [varX, blankPiece, .iri [⟨'p', by decide⟩], blankPiece, varX]

/-- `?x <p> ?x:-?x <p> ?x@weight(0.5).` -/
def weighted : RuleSource where
  head := atomX
  body := [⟨atomX, rfl, '?', by decide, rfl⟩]
  nonempty := List.cons_ne_nil _ _
  weight := some (.zero [⟨'5', rfl⟩])
  trailer := []

/-- The point of the weight ends the rule. -/
theorem not_splitsAsWritten_weighted : ¬ SplitsAsWritten [weighted] [] := by
  intro asWritten
  have entries := congrArg List.length asWritten.1
  revert entries
  decide

end Example

end RuleText

end PgRipple.Datalog
