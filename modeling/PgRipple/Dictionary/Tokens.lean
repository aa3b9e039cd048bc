import Mathlib.Algebra.GroupWithZero.Nat
import PgRipple.Dictionary.Term

/-!
# Splitting a quoted triple

`tokenize_rdf_terms` splits the inside of a quoted triple at the blanks where none of its
three flags is set. A quote turns the literal flag over even if it is escaped, and inside
`<<` and `>>` the end of an IRI does not clear the IRI flag.

What the flags are after a text depends on the text alone, since the one character that is
looked ahead matters only if it is a bracket. So three terms that are written with blanks
between them are split at these blanks exactly if each term, read alone, meets no blank
with all flags clear, and the first two leave the flags clear.
-/

namespace PgRipple.Dictionary

/-- The flags of the loop. -/
structure Flags where
  inLiteral : Bool
  inIri : Bool
  quotedDepth : Nat
  deriving DecidableEq

def Flags.clear : Flags := ⟨false, false, 0⟩

/-- What the loop does with a character: push it, push it with the next one, or end the
token. -/
inductive Move where
  | push (f : Flags)
  | pushPair (f : Flags)
  | separator

/-- The arms of the `match`, in order. -/
def Flags.move (f : Flags) (c : Char) (next : Option Char) : Move :=
  if c = '"' ∧ f.inIri = false then .push { f with inLiteral := !f.inLiteral }
  else if c = '<' ∧ f.inLiteral = false then
    if next = some '<' then .pushPair { f with quotedDepth := f.quotedDepth + 1 }
    else .push { f with inIri := true }
  else if c = '>' ∧ f.inLiteral = false ∧ 0 < f.quotedDepth then
    if next = some '>' then .pushPair { f with quotedDepth := f.quotedDepth - 1 }
    else .push f
  else if c = '>' ∧ f.inLiteral = false ∧ f.inIri = true then .push { f with inIri := false }
  else if (c = ' ' ∨ c = '\t' ∨ c = '\n') ∧ f = .clear then .separator
  else .push f

/-- The loop, from a character on. A pair is only pushed if there is a next character. -/
def tokenizeFrom (f : Flags) (current : Text) : Text → List Text
  | [] => if trim current = [] then [] else [trim current]
  | c :: cs =>
    match f.move c cs.head? with
    | .push f => tokenizeFrom f (current ++ [c]) cs
    | .pushPair f =>
      match cs with
      | [] => tokenizeFrom f (current ++ [c]) []
      | c' :: cs => tokenizeFrom f (current ++ [c, c']) cs
    | .separator =>
      if current = [] then tokenizeFrom f [] cs else trim current :: tokenizeFrom f [] cs

def tokenizeRdfTerms (text : Text) : List Text := tokenizeFrom .clear [] text

/-- The flags after a text, if no separator is met in it. -/
def Flags.after (f : Flags) : Text → Option Flags
  | [] => some f
  | c :: cs =>
    match f.move c cs.head? with
    | .push f => f.after cs
    | .pushPair f =>
      match cs with
      | [] => f.after []
      | _ :: cs => f.after cs
    | .separator => none

/-- Read alone, the text is one token and leaves the flags clear. -/
def Closed (t : Text) : Prop := Flags.clear.after t = some .clear

/-- Read alone, the text is one token. -/
def Unbroken (t : Text) : Prop := (Flags.clear.after t).isSome

instance (t : Text) : Decidable (Closed t) := inferInstanceAs (Decidable (_ = _))

instance (t : Text) : Decidable (Unbroken t) := inferInstanceAs (Decidable (_ = true))

section Move

variable {f f' : Flags} {c : Char} {next : Option Char}

theorem Flags.move_separator (h : f.move c next = .separator) :
    (c = ' ' ∨ c = '\t' ∨ c = '\n') ∧ f = .clear := by
  unfold Flags.move at h
  repeat' split at h
  all_goals first | assumption | cases h

theorem Flags.isWhitespace_of_separator (h : f.move c next = .separator) :
    isWhitespace c = true := by
  obtain ⟨rfl | rfl | rfl, -⟩ := Flags.move_separator h <;> rfl

theorem Flags.move_blank_clear : Flags.clear.move ' ' next = .separator := rfl

theorem Flags.move_blank (h : f ≠ .clear) : f.move ' ' next = .push f := by
  simp [Flags.move, h]

theorem Flags.move_pushPair (h : f.move c next = .pushPair f') :
    next = some '<' ∨ next = some '>' := by
  unfold Flags.move at h
  repeat' split at h
  all_goals first | exact .inl ‹_› | exact .inr ‹_› | cases h

/-- Only a bracket matters as the next character. -/
theorem Flags.move_of_no_bracket (h : next ≠ some '<' ∧ next ≠ some '>') :
    f.move c next = f.move c none := by
  simp only [Flags.move, if_neg h.1, if_neg h.2, reduceCtorEq, if_false]

end Move

section Run

variable {f f' : Flags} {t u rest : Text}

/-- What may follow a term does not begin with a bracket. -/
def NoBracket (rest : Text) : Prop := rest.head? ≠ some '<' ∧ rest.head? ≠ some '>'

/-- The next character that is looked at, with and without what follows. -/
theorem Flags.move_append (f : Flags) (c : Char) (h : NoBracket rest) :
    f.move c (t ++ rest).head? = f.move c t.head? := by
  cases t with
  | nil => exact Flags.move_of_no_bracket h
  | cons c' cs => rfl

/-- A term without a separator is pushed whole. -/
theorem tokenizeFrom_of_after (current : Text) (h : NoBracket rest) (read : f.after t = some f') :
    tokenizeFrom f current (t ++ rest) = tokenizeFrom f' (current ++ t) rest := by
  fun_induction Flags.after f t generalizing current with
  | case1 f =>
    cases read
    simp
  | case2 f c cs f₁ moved ih =>
    rw [List.cons_append, tokenizeFrom, Flags.move_append f c h, moved]
    simpa using ih (current ++ [c]) read
  | case3 f c f₁ moved ih =>
    have bracket := Flags.move_pushPair moved
    simp at bracket
  | case4 f c f₁ c' cs moved ih =>
    rw [List.cons_append, tokenizeFrom, Flags.move_append f c h, moved]
    simpa using ih (current ++ [c, c']) read
  | case5 => cases read

theorem length_trim_le (s : Text) : (trim s).length ≤ s.length := by
  have front : (s.dropWhile isWhitespace).length ≤ s.length :=
    (List.dropWhile_suffix _).length_le
  have back : (trim s).length ≤ (s.dropWhile isWhitespace).length :=
    (List.rdropWhile_prefix _ _).length_le
  omega

/-- A separator inside a term cuts the first token short. -/
theorem exists_tokenizeFrom_of_broken (current : Text) (h : NoBracket rest)
    (broken : f.after t = none)
    (started : current = [] → ∀ c, t.head? = some c → isWhitespace c = false) :
    ∃ token tokens, tokenizeFrom f current (t ++ rest) = token :: tokens ∧
      token.length < current.length + t.length := by
  fun_induction Flags.after f t generalizing current with
  | case1 f => cases broken
  | case2 f c cs f₁ moved ih =>
    obtain ⟨token, tokens, split, short⟩ := ih (current ++ [c]) broken (by simp)
    refine ⟨token, tokens, ?_, ?_⟩
    · rw [List.cons_append, tokenizeFrom, Flags.move_append f c h, moved]
      exact split
    · simp only [List.length_append, List.length_cons, List.length_nil] at short ⊢
      omega
  | case3 f c f₁ moved ih =>
    have bracket := Flags.move_pushPair moved
    simp at bracket
  | case4 f c f₁ c' cs moved ih =>
    obtain ⟨token, tokens, split, short⟩ := ih (current ++ [c, c']) broken (by simp)
    refine ⟨token, tokens, ?_, ?_⟩
    · rw [List.cons_append, tokenizeFrom, Flags.move_append f c h, moved]
      exact split
    · simp only [List.length_append, List.length_cons, List.length_nil] at short ⊢
      omega
  | case5 f c cs moved =>
    have nonempty : current ≠ [] := by
      intro empty
      have dark := started empty c rfl
      rw [Flags.isWhitespace_of_separator moved] at dark
      cases dark
    refine ⟨trim current, tokenizeFrom f [] (cs ++ rest), ?_, ?_⟩
    · rw [List.cons_append, tokenizeFrom, Flags.move_append f c h, moved]
      exact if_neg nonempty
    · have le := length_trim_le current
      simp only [List.length_cons]
      omega

/-- The first character is no blank. -/
def Begins (t : Text) : Prop := ∃ c, t.head? = some c ∧ isWhitespace c = false

theorem Begins.append (h : Begins u) (w : Text) : Begins (u ++ w) := by
  obtain ⟨c, head, dark⟩ := h
  exact ⟨c, by simp [head], dark⟩

theorem Begins.dropWhile_eq (h : Begins u) : u.dropWhile isWhitespace = u := by
  obtain ⟨c, head, dark⟩ := h
  obtain ⟨cs, rfl⟩ := List.head?_eq_some_iff.mp head
  exact List.dropWhile_cons_of_neg (by simp [dark])

/-- What stands before a character that is no blank stays, if it begins with one. -/
theorem length_lt_trim {c : Char} (front : Begins u)
    (dark : isWhitespace c = false) (more : Text) : u.length < (trim (u ++ c :: more)).length := by
  rw [trim, (front.append _).dropWhile_eq]
  induction more using List.reverseRecOn with
  | nil =>
    rw [List.rdropWhile_concat_neg _ _ _ (by simp [dark])]
    simp
  | append_singleton more last ih =>
    have snoc : u ++ c :: (more ++ [last]) = (u ++ c :: more) ++ [last] := by simp
    rw [snoc]
    by_cases blank : isWhitespace last = true
    · rw [List.rdropWhile_concat_pos _ _ _ blank]
      exact ih
    · rw [List.rdropWhile_concat_neg _ _ _ blank]
      simp

/-- A token that has begun is not cut back. -/
theorem exists_tokenizeFrom_of_begun {c : Char} {w : Text}
    (front : Begins u) (dark : isWhitespace c = false) :
    ∃ token tokens, tokenizeFrom f (u ++ c :: w) rest = token :: tokens ∧
      u.length < token.length := by
  have nonempty (w : Text) : trim (u ++ c :: w) ≠ [] := by
    intro empty
    have kept := length_lt_trim front dark w
    rw [empty] at kept
    cases kept
  generalize begun : u ++ c :: w = current
  fun_induction tokenizeFrom f current rest generalizing w with
  | case1 f current empty => exact absurd empty (begun ▸ nonempty w)
  | case2 f current =>
    exact ⟨_, _, rfl, begun ▸ length_lt_trim front dark w⟩
  | case3 f current c' cs f₁ moved ih => exact ih (w := w ++ [c']) (by simp [← begun])
  | case4 f current c' f₁ moved ih => exact ih (w := w ++ [c']) (by simp [← begun])
  | case5 f current c' f₁ c'' cs moved ih => exact ih (w := w ++ [c', c'']) (by simp [← begun])
  | case6 f c' cs moved ih => exact absurd begun (by simp)
  | case7 f current c' cs moved nonempty' ih =>
    exact ⟨_, _, rfl, begun ▸ length_lt_trim front dark w⟩

/-- The next character begins the rest of the token if it is no blank. -/
theorem exists_tokenizeFrom_of_next {c : Char} (f : Flags) (rest : Text)
    (front : Begins u) (dark : isWhitespace c = false) :
    ∃ token tokens, tokenizeFrom f u (c :: rest) = token :: tokens ∧ u.length < token.length := by
  rw [tokenizeFrom]
  split
  · exact exists_tokenizeFrom_of_begun front dark
  · split
    · exact exists_tokenizeFrom_of_begun front dark
    · exact exists_tokenizeFrom_of_begun (w := [_]) front dark
  · rename_i moved
    rw [Flags.isWhitespace_of_separator moved] at dark
    cases dark

end Run

/-- A text that neither begins nor ends with a blank. -/
structure Solid (t : Text) : Prop where
  front : Begins t
  trimmed : trim t = t

section Split

variable {t ts tp to' rest : Text}

theorem Begins.ne_nil (h : Begins t) : t ≠ [] := by
  rintro rfl
  obtain ⟨c, head, -⟩ := h
  cases head

theorem Begins.started (h : Begins t) : ∀ c, t.head? = some c → isWhitespace c = false := by
  obtain ⟨c, head, dark⟩ := h
  intro c' head'
  rw [head] at head'
  cases head'
  exact dark

theorem noBracket_blank (rest : Text) : NoBracket (' ' :: rest) := by
  constructor <;> simp

theorem noBracket_nil : NoBracket [] := by
  constructor <;> simp

theorem tokenizeFrom_of_closed (h : Solid t) (closed : Closed t) (rest : Text) :
    tokenizeFrom .clear [] (t ++ ' ' :: rest) = t :: tokenizeFrom .clear [] rest := by
  rw [tokenizeFrom_of_after [] (noBracket_blank rest) closed, List.nil_append, tokenizeFrom,
    Flags.move_blank_clear]
  exact (if_neg h.front.ne_nil).trans (congrArg (· :: _) h.trimmed)

/-- No other text in front of a term is. -/
theorem closed_of_tokenizeFrom {tokens : List Text} (h : Begins t) (next : Begins rest)
    (split : tokenizeFrom .clear [] (t ++ ' ' :: rest) = t :: tokens) : Closed t := by
  cases read : Flags.clear.after t with
  | none =>
    obtain ⟨token, others, split', short⟩ := exists_tokenizeFrom_of_broken []
      (noBracket_blank rest) read fun _ => h.started
    rw [split] at split'
    cases split'
    simp at short
  | some f =>
    by_cases clear : f = .clear
    · rw [Closed, read, clear]
    · obtain ⟨c, head, dark⟩ := next
      obtain ⟨cs, rfl⟩ := List.head?_eq_some_iff.mp head
      obtain ⟨token, others, split', long⟩ :=
        exists_tokenizeFrom_of_next f cs (h.append [' ']) dark
      rw [tokenizeFrom_of_after [] (noBracket_blank _) read, List.nil_append, tokenizeFrom,
        Flags.move_blank clear] at split
      have same : t = token := (List.cons.inj (split.symm.trans split')).1
      rw [← same, List.length_append] at long
      omega

theorem tokenizeFrom_eq_singleton_iff (h : Solid t) :
    tokenizeFrom .clear [] t = [t] ↔ Unbroken t := by
  cases read : Flags.clear.after t with
  | none =>
    have broken : ¬ Unbroken t := by simp [Unbroken, read]
    refine iff_of_false ?_ broken
    intro split
    obtain ⟨token, others, split', short⟩ := exists_tokenizeFrom_of_broken []
      noBracket_nil read fun _ => h.front.started
    rw [List.append_nil, split] at split'
    cases split'
    simp at short
  | some f =>
    have unbroken : Unbroken t := by simp [Unbroken, read]
    refine iff_of_true ?_ unbroken
    have whole := tokenizeFrom_of_after [] noBracket_nil read
    rw [List.append_nil, List.nil_append] at whole
    rw [whole, tokenizeFrom, h.trimmed]
    exact if_neg h.front.ne_nil

/-- Three terms are split where they were joined exactly if the first two are closed and the
third is unbroken. -/
theorem tokenizeRdfTerms_eq_iff (hs : Solid ts) (hp : Solid tp) (ho : Solid to') :
    tokenizeRdfTerms (ts ++ ' ' :: (tp ++ ' ' :: to')) = [ts, tp, to'] ↔
      Closed ts ∧ Closed tp ∧ Unbroken to' := by
  rw [tokenizeRdfTerms]
  constructor
  · intro split
    have subject := closed_of_tokenizeFrom hs.front (hp.front.append _) split
    rw [tokenizeFrom_of_closed hs subject] at split
    have split := (List.cons.inj split).2
    have predicate := closed_of_tokenizeFrom hp.front ho.front split
    rw [tokenizeFrom_of_closed hp predicate] at split
    exact ⟨subject, predicate, (tokenizeFrom_eq_singleton_iff ho).mp (List.cons.inj split).2⟩
  · rintro ⟨subject, predicate, object⟩
    rw [tokenizeFrom_of_closed hs subject, tokenizeFrom_of_closed hp predicate,
      (tokenizeFrom_eq_singleton_iff ho).mpr object]

end Split

/-- Each token but the last took at least one separator. -/
theorem length_tokenizeFrom_le (f : Flags) (current text : Text) :
    ((tokenizeFrom f current text).map List.length).sum + (tokenizeFrom f current text).length ≤
      current.length + text.length + 1 := by
  fun_induction tokenizeFrom f current text with
  | case1 f current empty => simp
  | case2 f current =>
    have le := length_trim_le current
    simp only [List.map_cons, List.map_nil, List.sum_cons, List.sum_nil, List.length_cons,
      List.length_nil]
    omega
  | case3 f current c cs f₁ moved ih =>
    simp only [List.length_append, List.length_cons, List.length_nil] at ih ⊢
    omega
  | case4 f current c f₁ moved ih =>
    simp only [List.length_append, List.length_cons, List.length_nil] at ih ⊢
    omega
  | case5 f current c f₁ c' cs moved ih =>
    simp only [List.length_append, List.length_cons, List.length_nil] at ih ⊢
    omega
  | case6 f c cs moved ih =>
    simp only [List.length_cons, List.length_nil] at ih ⊢
    omega
  | case7 f current c cs moved nonempty ih =>
    have le := length_trim_le current
    simp only [List.map_cons, List.sum_cons, List.length_cons, List.length_nil] at ih ⊢
    omega

theorem length_tokenizeRdfTerms_le (text : Text) :
    ((tokenizeRdfTerms text).map List.length).sum + (tokenizeRdfTerms text).length ≤
      text.length + 1 := by
  have le := length_tokenizeFrom_le .clear [] text
  rwa [List.length_nil, Nat.zero_add] at le

end PgRipple.Dictionary
