import PgRipple.Lib.Marks
import PgRipple.Dictionary.Term

/-!
# Splitting rule texts

`tokenize_rules` cuts a text into rules and drops its comments; `split_body` cuts the body of
a rule at commas. Both read character by character and carry two flags for what they take
to be the inside of a literal and of an IRI. Neither knows escapes, and every `<` outside of
a literal begins an IRI.

What they do to a character depends on the flags alone, so each is the reading of a text
whose characters it has marked.
-/

namespace PgRipple.Datalog

open Dictionary (Text trim isWhitespace)
open Marks (Role entries)

namespace Lexer

/-- The variables of the loop. `inComment` stands for the inner loop that runs to the end of the
line. -/
structure Tokenizer where
  inLiteral : Bool
  inIri : Bool
  inComment : Bool
  current : Text
  rules : List Text

/-- Push the trimmed rule, unless it is empty. -/
def pushRule (rules : List Text) (current : Text) : List Text :=
  let trimmed := trim current
  if trimmed ≠ [] then rules ++ [trimmed] else rules

def Tokenizer.step (st : Tokenizer) (c : Char) : Tokenizer :=
  if st.inComment ∧ c ≠ '\n' then st
  else
    let st := { st with inComment := false }
    if c = '"' ∧ ¬ st.inIri then
      { st with inLiteral := !st.inLiteral, current := st.current ++ [c] }
    else if c = '<' ∧ ¬ st.inLiteral then
      { st with inIri := true, current := st.current ++ [c] }
    else if c = '>' ∧ ¬ st.inLiteral ∧ st.inIri then
      { st with inIri := false, current := st.current ++ [c] }
    else if c = '.' ∧ ¬ st.inLiteral ∧ ¬ st.inIri then
      { st with rules := pushRule st.rules st.current, current := [] }
    else if c = '#' ∧ ¬ st.inLiteral ∧ ¬ st.inIri then
      { st with inComment := true }
    else { st with current := st.current ++ [c] }

def tokenizeRules (text : Text) : List Text :=
  let st := text.foldl Tokenizer.step ⟨false, false, false, [], []⟩
  pushRule st.rules st.current

structure BodySplitter where
  inLiteral : Bool
  inIri : Bool
  depth : Int
  current : Text
  parts : List Text

def BodySplitter.step (st : BodySplitter) (c : Char) : BodySplitter :=
  if c = '"' then
    { st with inLiteral := !st.inLiteral, current := st.current ++ [c] }
  else if c = '<' ∧ ¬ st.inLiteral then
    { st with inIri := true, current := st.current ++ [c] }
  else if c = '>' ∧ ¬ st.inLiteral ∧ st.inIri then
    { st with inIri := false, current := st.current ++ [c] }
  else if (c = '{' ∨ c = '(') ∧ ¬ st.inLiteral ∧ ¬ st.inIri then
    { st with depth := st.depth + 1, current := st.current ++ [c] }
  else if (c = '}' ∨ c = ')') ∧ ¬ st.inLiteral ∧ ¬ st.inIri then
    { st with depth := st.depth - 1, current := st.current ++ [c] }
  else if c = ',' ∧ ¬ st.inLiteral ∧ ¬ st.inIri ∧ st.depth = 0 then
    { st with parts := st.parts ++ [trim st.current], current := [] }
  else { st with current := st.current ++ [c] }

def splitBody (text : Text) : List Text :=
  let st := text.foldl BodySplitter.step ⟨false, false, 0, [], []⟩
  if trim st.current ≠ [] then st.parts ++ [trim st.current] else st.parts

theorem pushRule_eq (rules : List Text) (current : Text) :
    pushRule rules current = rules ++ Marks.push isWhitespace false current [] := by
  by_cases empty : trim current = []
  · rw [pushRule, if_neg (not_not_intro empty), Marks.push, if_pos ⟨empty, rfl⟩, List.append_nil]
  · rw [pushRule, if_pos empty, Marks.push, if_neg fun h => empty h.1]
    rfl

theorem push_append (current : Text) (es : List Text) :
    Marks.push isWhitespace false current [] ++ es = Marks.push isWhitespace false current es := by
  rw [Marks.push, Marks.push]
  split
  · rfl
  · rfl

/-- Where a character stands when quotes and angle brackets are paired blindly. -/
inductive Stretch where
  | outside
  | literal
  | iri
  deriving DecidableEq, Repr

namespace Stretch

/-- A quote ends a literal, even an escaped one; the next `>` ends what a `<` began. -/
def next : Stretch → Char → Stretch
  | .outside, c => if c = '"' then .literal else if c = '<' then .iri else .outside
  | .literal, c => if c = '"' then .outside else .literal
  | .iri, c => if c = '>' then .outside else .iri

/-- What `tokenize_rules` does to each character. -/
def roles : Stretch → (inComment : Bool) → Text → List (Char × Role)
  | _, _, [] => []
  | s, inComment, c :: cs =>
    if inComment = true ∧ c ≠ '\n' then (c, .skipped) :: roles s true cs
    else if c = '.' ∧ s = .outside then (c, .stop) :: roles s false cs
    else if c = '#' ∧ s = .outside then (c, .skipped) :: roles s true cs
    else (c, .kept) :: roles (s.next c) false cs

/-- Periods that end a rule and comments are outside, other periods and comment signs are not. -/
def Agrees : Stretch → List (Char × Role) → Prop
  | _, [] => True
  | s, (c, .kept) :: ms => (c = '.' ∨ c = '#' → s ≠ .outside) ∧ Agrees (s.next c) ms
  | s, (_, .stop) :: ms => s = .outside ∧ Agrees s ms
  | s, (_, .skipped) :: ms => s = .outside ∧ Agrees s ms

/-- The loop variables in a stretch. -/
def tokenizer (s : Stretch) (inComment : Bool) (current : Text) (rules : List Text) : Tokenizer :=
  ⟨s = .literal, s = .iri, inComment, current, rules⟩

variable {s : Stretch} {inComment : Bool} {current : Text} {rules : List Text} {c : Char}
  {text : Text} {ms : List (Char × Role)}

theorem step_comment (h : inComment = true ∧ c ≠ '\n') :
    (s.tokenizer inComment current rules).step c = s.tokenizer inComment current rules :=
  if_pos h

theorem step_outside (h : ¬ (inComment = true ∧ c ≠ '\n'))
    (plain : c ≠ '.' ∧ c ≠ '#' ∨ s ≠ .outside) :
    (s.tokenizer inComment current rules).step c =
      (s.next c).tokenizer false (current ++ [c]) rules := by
  refine (if_neg h).trans ?_
  cases s with
  | outside =>
    obtain ⟨notPeriod, notHash⟩ := plain.resolve_right fun inside => inside rfl
    by_cases quote : c = '"'
    · simp [tokenizer, next, quote]
    · by_cases less : c = '<'
      · simp [tokenizer, next, less]
      · simp [tokenizer, next, quote, less, notPeriod, notHash]
  | literal => by_cases quote : c = '"' <;> simp [tokenizer, next, quote]
  | iri =>
    by_cases greater : c = '>'
    · simp [tokenizer, next, greater]
    · by_cases less : c = '<' <;> simp [tokenizer, next, greater, less]

/-- The loop yields the entries of the text as it marks it. -/
theorem foldl_step (s : Stretch) (inComment : Bool) (current : Text) (rules : List Text)
    (text : Text) :
    pushRule (text.foldl Tokenizer.step (s.tokenizer inComment current rules)).rules
        (text.foldl Tokenizer.step (s.tokenizer inComment current rules)).current =
      rules ++ entries isWhitespace false current (s.roles inComment text) := by
  induction text generalizing s inComment current rules with
  | nil => exact pushRule_eq rules current
  | cons c cs ih =>
    rw [List.foldl_cons, roles]
    split
    · rename_i comment
      rw [step_comment comment, comment.1, ih]
      rfl
    · rename_i notComment
      split
      · rename_i period
        have stop : (s.tokenizer inComment current rules).step c =
            s.tokenizer false [] (pushRule rules current) := by
          obtain ⟨rfl, rfl⟩ := period
          exact if_neg notComment
        rw [stop, ih, entries, pushRule_eq, List.append_assoc, push_append]
      · rename_i notPeriod
        split
        · rename_i hash
          have skip : (s.tokenizer inComment current rules).step c =
              s.tokenizer true current rules := by
            obtain ⟨rfl, rfl⟩ := hash
            exact if_neg notComment
          rw [skip, ih, entries]
        · rename_i notHash
          rw [step_outside notComment, ih, entries]
          by_cases inside : s = .outside
          · exact .inl ⟨fun period => notPeriod ⟨period, inside⟩,
              fun hash => notHash ⟨hash, inside⟩⟩
          · exact .inr inside

theorem map_fst_roles (s : Stretch) (inComment : Bool) (text : Text) :
    (s.roles inComment text).map Prod.fst = text := by
  induction text generalizing s inComment with
  | nil => rfl
  | cons c cs ih =>
    rw [roles]
    split
    · rw [List.map_cons, ih]
    · split
      · rw [List.map_cons, ih]
      · split
        · rw [List.map_cons, ih]
        · rw [List.map_cons, ih]

theorem lined_roles (s : Stretch) (inComment : Bool) (text : Text) :
    Marks.Lined '.' '#' '\n' inComment (s.roles inComment text) := by
  induction text generalizing s inComment with
  | nil => trivial
  | cons c cs ih =>
    rw [roles]
    split
    · rename_i comment
      obtain ⟨rfl, sameLine⟩ := comment
      rw [Marks.Lined, if_neg sameLine]
      exact ⟨rfl, ih s true⟩
    · rename_i notComment
      cases inComment with
      | false =>
        split
        · rename_i period
          exact ⟨period.1, ih s false⟩
        · split
          · rename_i hash
            exact ⟨hash.1, ih s true⟩
          · exact ih (s.next c) false
      | true =>
        obtain rfl : c = '\n' := by
          by_contra sameLine
          exact notComment ⟨rfl, sameLine⟩
        rw [if_neg (by simp), if_neg (by simp), Marks.Lined, if_pos rfl]
        exact ⟨rfl, ih (s.next '\n') false⟩

/-- The roles are those of a marking if and only if it agrees with the stretches. -/
theorem roles_eq_iff (lined : Marks.Lined '.' '#' '\n' inComment ms)
    (comment : inComment = true → s = .outside) :
    s.roles inComment (ms.map Prod.fst) = ms ↔ s.Agrees ms := by
  induction ms generalizing s inComment with
  | nil => exact iff_of_true rfl trivial
  | cons m ms ih =>
    obtain ⟨c, role⟩ := m
    have here {t : Stretch} {flag : Bool} (lined : Marks.Lined '.' '#' '\n' flag ms)
        (comment : flag = true → t = .outside) :
        (c, role) :: t.roles flag (ms.map Prod.fst) = (c, role) :: ms ↔ t.Agrees ms := by
      rw [List.cons_inj_right]
      exact ih lined comment
    rw [List.map_cons, roles]
    cases inComment with
    | true =>
      obtain rfl := comment rfl
      rw [Marks.Lined] at lined
      split at lined
      · rename_i line
        obtain ⟨rfl, lined⟩ := lined
        rw [if_neg (by simp [line]), if_neg (by simp [line]), if_neg (by simp [line]),
          here lined (by simp),
          Agrees]
        simp [line]
      · rename_i sameLine
        obtain ⟨rfl, lined⟩ := lined
        rw [if_pos ⟨rfl, sameLine⟩, here lined fun _ => rfl, Agrees, and_iff_right rfl]
    | false =>
      rw [if_neg (by simp)]
      cases role with
      | kept =>
        have lined : Marks.Lined '.' '#' '\n' false ms := lined
        rw [Agrees]
        by_cases outside : s = .outside
        · by_cases period : c = '.'
          · simp [outside, period]
          · by_cases hash : c = '#'
            · simp [outside, hash]
            · rw [if_neg (by simp [period]), if_neg (by simp [hash]), here lined (by simp)]
              simp [period, hash]
        · rw [if_neg (by simp [outside]), if_neg (by simp [outside]), here lined (by simp)]
          simp [outside]
      | stop =>
        obtain ⟨rfl, lined⟩ := lined
        rw [Agrees]
        by_cases outside : s = .outside
        · rw [if_pos ⟨rfl, outside⟩, here lined (by simp), and_iff_right outside]
        · simp [outside]
      | skipped =>
        obtain ⟨rfl, lined⟩ := lined
        rw [Agrees]
        by_cases outside : s = .outside
        · rw [if_neg (by simp), if_pos ⟨rfl, outside⟩, here lined fun _ => outside,
            and_iff_right outside]
        · simp [outside]

end Stretch

/-- `tokenize_rules` returns the entries of the text as it marks it. -/
theorem tokenizeRules_eq (text : Text) :
    tokenizeRules text = entries isWhitespace false [] (Stretch.outside.roles false text) :=
  Stretch.foldl_step .outside false [] [] text

/-- A proper marking of a text gives its entries if and only if it agrees with the stretches. -/
theorem tokenizeRules_eq_entries_iff {ms : List (Char × Role)}
    (lined : Marks.Lined '.' '#' '\n' false ms)
    (proper : Marks.Proper isWhitespace '.' '#' [] ms) :
    tokenizeRules (ms.map Prod.fst) = entries isWhitespace false [] ms ↔
      Stretch.outside.Agrees ms := by
  rw [← Stretch.roles_eq_iff lined nofun, tokenizeRules_eq]
  constructor
  · intro equal
    exact Marks.eq_of_entries_eq rfl rfl (by decide) (by decide) (Stretch.lined_roles _ _ _) lined
      proper (Stretch.map_fst_roles _ _ _) equal
  · intro same
    rw [same]

/-- Where a character of a body stands: here quotes count in angle brackets too, and brackets
outside of literals and IRIs are counted. -/
structure Nesting where
  inLiteral : Bool
  inIri : Bool
  depth : Int
  deriving DecidableEq, Repr

namespace Nesting

def start : Nesting := ⟨false, false, 0⟩

def next (n : Nesting) (c : Char) : Nesting :=
  if c = '"' then { n with inLiteral := !n.inLiteral }
  else if n.inLiteral then n
  else if c = '<' then { n with inIri := true }
  else if n.inIri then if c = '>' then { n with inIri := false } else n
  else if c = '{' ∨ c = '(' then { n with depth := n.depth + 1 }
  else if c = '}' ∨ c = ')' then { n with depth := n.depth - 1 }
  else n

/-- A comma here is a top-level one to `split_body`. -/
def Separates (n : Nesting) : Prop := n.inLiteral = false ∧ n.inIri = false ∧ n.depth = 0

instance (n : Nesting) : Decidable n.Separates := inferInstanceAs (Decidable (_ ∧ _))

/-- What `split_body` does to each character. -/
def roles : Nesting → Text → List (Char × Role)
  | _, [] => []
  | n, c :: cs =>
    if c = ',' ∧ n.Separates then (c, .stop) :: roles n cs else (c, .kept) :: roles (n.next c) cs

/-- The commas between literals separate, no other comma does. -/
def Agrees : Nesting → List (Char × Role) → Prop
  | _, [] => True
  | n, (c, .kept) :: ms => (c = ',' → ¬ n.Separates) ∧ Agrees (n.next c) ms
  | n, (_, .stop) :: ms => n.Separates ∧ Agrees n ms
  | _, (_, .skipped) :: _ => False

/-- A marking of a body: only commas stop. -/
def Commas (ms : List (Char × Role)) : Prop :=
  ∀ m ∈ ms, m.2 = .kept ∨ m.2 = .stop ∧ m.1 = ','

/-- The loop variables at a place. -/
def splitter (n : Nesting) (current : Text) (parts : List Text) : BodySplitter :=
  ⟨n.inLiteral, n.inIri, n.depth, current, parts⟩

variable {n : Nesting} {current : Text} {parts : List Text} {c : Char} {ms : List (Char × Role)}

theorem step_kept (plain : ¬ (c = ',' ∧ n.Separates)) :
    (n.splitter current parts).step c = (n.next c).splitter (current ++ [c]) parts := by
  obtain ⟨inLiteral, inIri, depth⟩ := n
  rw [BodySplitter.step]
  by_cases quote : c = '"'
  · simp [splitter, next, quote]
  · cases inLiteral with
    | true => simp [splitter, next, quote]
    | false =>
      by_cases less : c = '<'
      · simp [splitter, next, less]
      · cases inIri with
        | true => by_cases greater : c = '>' <;> simp [splitter, next, quote, less, greater]
        | false =>
          by_cases opening : c = '{' ∨ c = '('
          · simp [splitter, next, quote, less, opening]
          · by_cases closing : c = '}' ∨ c = ')'
            · simp [splitter, next, quote, less, opening, closing]
            · have notComma : ¬ (c = ',' ∧ depth = 0) := fun h => plain ⟨h.1, rfl, rfl, h.2⟩
              simp [splitter, next, quote, less, opening, closing, notComma]

theorem foldl_step (n : Nesting) (current : Text) (parts : List Text) (text : Text) :
    (text.foldl BodySplitter.step (n.splitter current parts)).parts ++ Marks.push isWhitespace false
        (text.foldl BodySplitter.step (n.splitter current parts)).current [] =
      parts ++ entries isWhitespace true current (n.roles text) := by
  induction text generalizing n current parts with
  | nil => rfl
  | cons c cs ih =>
    rw [List.foldl_cons, roles]
    split
    · rename_i comma
      have stop : (n.splitter current parts).step c = n.splitter [] (parts ++ [trim current]) := by
        obtain ⟨rfl, literal, iri, depth⟩ := comma
        simp [BodySplitter.step, splitter, literal, iri, depth]
      rw [stop, ih, entries, Marks.push_true, List.append_assoc]
      rfl
    · rename_i plain
      rw [step_kept plain, ih, entries]

theorem map_fst_roles (n : Nesting) (text : Text) : (n.roles text).map Prod.fst = text := by
  induction text generalizing n with
  | nil => rfl
  | cons c cs ih =>
    rw [roles]
    split
    · rw [List.map_cons, ih]
    · rw [List.map_cons, ih]

theorem plain_of_commas (commas : Commas ms) : Marks.Plain isWhitespace ms := by
  intro m mem
  obtain kept | ⟨stop, comma⟩ := commas m mem
  · exact .inl kept
  · exact .inr ⟨stop, by rw [comma]; rfl⟩

theorem commas_roles (n : Nesting) (text : Text) : Commas (n.roles text) := by
  induction text generalizing n with
  | nil => exact fun m mem => nomatch mem
  | cons c cs ih =>
    rw [roles]
    split
    · rename_i comma
      exact List.forall_mem_cons.mpr ⟨.inr ⟨rfl, comma.1⟩, ih n⟩
    · exact List.forall_mem_cons.mpr ⟨.inl rfl, ih (n.next c)⟩

/-- The roles are those of a marking if and only if it agrees with the nesting. -/
theorem roles_eq_iff (commas : Commas ms) : n.roles (ms.map Prod.fst) = ms ↔ n.Agrees ms := by
  induction ms generalizing n with
  | nil => exact iff_of_true rfl trivial
  | cons m ms ih =>
    obtain ⟨c, role⟩ := m
    obtain ⟨here, later⟩ := List.forall_mem_cons.mp commas
    rw [List.map_cons, roles]
    obtain rfl | ⟨rfl, comma⟩ := here
    · rw [Agrees]
      by_cases separates : c = ',' ∧ n.Separates
      · simp [separates]
      · rw [if_neg separates, List.cons_inj_right, ih later]
        exact (and_iff_right fun comma stop => separates ⟨comma, stop⟩).symm
    · obtain rfl : c = ',' := comma
      rw [Agrees]
      by_cases separates : n.Separates
      · rw [if_pos ⟨rfl, separates⟩, List.cons_inj_right, ih later, and_iff_right separates]
      · simp [separates]

end Nesting

/-- `split_body` returns the parts of the text as it marks it. -/
theorem splitBody_eq (text : Text) :
    splitBody text = entries isWhitespace true [] (Nesting.start.roles text) := by
  rw [← List.nil_append (entries _ _ _ _), ← Nesting.foldl_step, ← pushRule_eq]
  rfl

/-- A marking of a body gives its parts if and only if it agrees with the nesting. -/
theorem splitBody_eq_entries_iff {ms : List (Char × Role)} (commas : Nesting.Commas ms) :
    splitBody (ms.map Prod.fst) = entries isWhitespace true [] ms ↔ Nesting.start.Agrees ms := by
  rw [← Nesting.roles_eq_iff commas, splitBody_eq]
  constructor
  · intro equal
    exact Marks.eq_of_entries_eq_of_plain (Nesting.plain_of_commas (Nesting.commas_roles _ _))
      (Nesting.plain_of_commas commas) (Nesting.map_fst_roles _ _) equal
  · intro same
    rw [same]

end Lexer

end PgRipple.Datalog
