import PgRipple.Sparql.ArqAggregates

/-!
# The meaning of a preprocessed query

Preprocessing twice gives what preprocessing once gives: the IRIs that it puts have no word at
whose beginning it would rewrite, and they cut what could be read as one. Two ways to mark a text,
where the scanner rewrites and where a function keyword begins, give the same result only if
they are the same; thus the query keeps its meaning exactly if the scanner takes for keywords
the function keywords.
-/

namespace PgRipple.Sparql.Arq

open Dictionary (Text)
open Utf8 (bytes)
open Lexer (Token lex isBlank)

section Again

variable {s p kw : Text} {c : Char} {previous : Option Char} {n : Nat}

theorem hit_of_not_m (other : c.toLower ≠ 'm') : hit previous (c :: s) = false := by
  rw [hit_eq]
  cases keyword : found (c :: s) with
  | none => rw [Option.isSome_none, Bool.and_false]
  | some r =>
    obtain ⟨-, d, inside, after, reads⟩ := reads_of_found keyword
    obtain ⟨rfl, -⟩ := List.cons.inj reads.eq
    exact absurd reads.first other

/-- No keyword can begin in a text. -/
def quiet : (previous : Option Char) → Text → Bool
  | _, [] => true
  | previous, c :: p => (c.toLower ≠ 'm' || !boundary previous) && quiet (some c) p

theorem quiet_iri {iri : Text} (h : iri = medianIri ∨ iri = modeIri) :
    quiet previous iri = true := by
  have first (p : Text) (later : quiet (some '<') p = true) : quiet previous ('<' :: p) = true := by
    rw [quiet, later]
    rfl
  obtain rfl | rfl := h
  · exact first "urn:arq:median>".toList (by decide)
  · exact first "urn:arq:mode>".toList (by decide)

theorem out_append (h : quiet previous p = true) (s : Text) :
    out previous (p ++ s) = p ++ out (p.getLast?.or previous) s := by
  induction p generalizing previous with
  | nil => rfl
  | cons c p ih =>
    rw [quiet, Bool.and_eq_true, Bool.or_eq_true, decide_eq_true_eq, Bool.not_eq_true'] at h
    have miss : hit previous (c :: (p ++ s)) = false := by
      obtain other | inside := h.1
      · exact hit_of_not_m other
      · rw [hit, inside, Bool.false_and]
    have last : (c :: p).getLast?.or previous = p.getLast?.or (some c) := by
      rw [List.getLast?_cons]
      cases p.getLast?
      all_goals rfl
    rw [List.cons_append, out_miss miss, ih h.2, last, List.cons_append]

theorem out_parenthesis (s : Text) : out previous ('(' :: s) = '(' :: out (some '(') s :=
  out_miss (hit_of_not_m (by decide))

/-- At a hit the scanner puts an IRI, and goes on at the parenthesis. -/
theorem out_found (h : hit previous s = true) : ∃ iri after,
    (iri = medianIri ∨ iri = modeIri) ∧ after.length < s.length ∧
      out previous s = iri ++ '(' :: out (some '(') after := by
  rw [hit_eq, Bool.and_eq_true, Option.isSome_iff_exists] at h
  obtain ⟨here, r, keyword⟩ := h
  obtain ⟨iri, c, inside, after, reads⟩ := reads_of_found keyword
  refine ⟨r.1, after, iri, ?_, ?_⟩
  · rw [reads.eq]
    simp only [List.length_cons, List.length_append]
    omega
  · have back : s.drop r.2 = '(' :: after := by
      rw [reads.eq, reads.length]
      exact List.drop_left
    rw [out_hit here keyword, back, out_parenthesis]

theorem head_iri {iri : Text} (h : iri = medianIri ∨ iri = modeIri) (s : Text) :
    ∃ rest, iri ++ s = '<' :: rest := by
  obtain rfl | rfl := h
  · exact ⟨_, rfl⟩
  · exact ⟨_, rfl⟩

/-- The scanner puts no text that has no `<`. -/
theorem prefix_of_prefix_out (plain : '<' ∉ p) (h : p <+: out previous s) : p <+: s := by
  induction p generalizing previous s with
  | nil => exact List.nil_prefix
  | cons d p ih =>
    cases s with
    | nil => exact h
    | cons c s =>
      cases marked : hit previous (c :: s) with
      | false =>
        rw [out_miss marked, List.cons_prefix_cons] at h
        rw [List.cons_prefix_cons]
        exact ⟨h.1, ih (fun listed => plain (List.mem_cons_of_mem d listed)) h.2⟩
      | true =>
        obtain ⟨iri, after, known, -, eq⟩ := out_found marked
        obtain ⟨rest, begins⟩ := head_iri known ('(' :: out (some '(') after)
        rw [eq, begins, List.cons_prefix_cons] at h
        exact absurd (h.1 ▸ List.mem_cons_self) plain

/-- What is no hit before the text is rewritten is none after. -/
theorem hit_out (miss : hit previous (c :: s) = false) :
    hit previous (c :: out (some c) s) = false := by
  have back {kw : Text} (plain : ∀ d ∈ kw, d ≠ '<') {n : Nat}
      (h : keywordAt kw (c :: out (some c) s) = some n) : keywordAt kw (c :: s) = some n := by
    obtain ⟨word, blanks, after, eq, letters, blank, length⟩ := keywordAt_eq_some_iff.mp h
    have open' : '<' ∉ word ++ (blanks ++ ['(']) := by
      rw [List.mem_append, List.mem_append]
      rintro (listed | listed | listed)
      · exact plain _ (letters ▸ List.mem_map_of_mem listed) rfl
      · exact absurd (blank _ listed) (by decide)
      · exact absurd listed (by decide)
    have front : word ++ (blanks ++ ['(']) <+: c :: out (some c) s := ⟨after, by simp [eq]⟩
    obtain ⟨d, rest, split⟩ : ∃ d rest, word ++ (blanks ++ ['(']) = d :: rest :=
      List.exists_cons_of_ne_nil (by simp)
    rw [split] at front open'
    rw [List.cons_prefix_cons] at front
    obtain ⟨behind, whole⟩ :=
      prefix_of_prefix_out (fun listed => open' (List.mem_cons_of_mem d listed)) front.2
    refine keywordAt_eq_some_iff.mpr ⟨word, blanks, behind, ?_, letters, blank, length⟩
    rw [← whole, ← List.cons_append, ← front.1, ← split]
    simp
  by_contra marked
  rw [Bool.not_eq_false, hit, Bool.and_eq_true, Bool.or_eq_true, Option.isSome_iff_exists,
    Option.isSome_iff_exists] at marked
  rw [hit, marked.1, Bool.true_and, Bool.or_eq_false_iff] at miss
  obtain ⟨n, h⟩ | ⟨n, h⟩ := marked.2
  · rw [back (by simp [median]) h] at miss
    cases miss.1
  · rw [back (by simp [mode]) h] at miss
    cases miss.2

theorem out_out (previous : Option Char) (s : Text) :
    out previous (out previous s) = out previous s := by
  induction len : s.length using Nat.strong_induction_on generalizing previous s with
  | _ len' ih =>
    subst len
    cases s with
    | nil => rfl
    | cons c s =>
      cases marked : hit previous (c :: s) with
      | false =>
        rw [out_miss marked, out_miss (hit_out marked), ih s.length (Nat.lt_succ_self _) _ _ rfl]
      | true =>
        obtain ⟨iri, after, known, shorter, eq⟩ := out_found marked
        rw [eq, out_append (quiet_iri known), out_parenthesis, ih after.length shorter _ _ rfl]

end Again

section Marks

variable {s : Text} {c : Char} {previous : Option Char} {m : List (Char × Bool)} {i k : Nat}
  {ts later : List Token} {t : Token}

/-- A text begins with one of the words. -/
def Begins (s : Text) : Prop :=
  (s.take median.length).map Char.toLower = median ∨ (s.take mode.length).map Char.toLower = mode

/-- One of the words begins at every mark. -/
def Words : List (Char × Bool) → Prop
  | [] => True
  | (c, b) :: m => (b = true → Begins (c :: Marked.text m)) ∧ Words m

theorem begins_of_keywordAt {kw : Text} {n : Nat} (h : keywordAt kw s = some n) :
    (s.take kw.length).map Char.toLower = kw := by
  unfold keywordAt at h
  split at h
  · rename_i both
    exact both.1
  · cases h

theorem begins_of_hit (h : hit previous s = true) : Begins s := by
  rw [hit, Bool.and_eq_true, Bool.or_eq_true, Option.isSome_iff_exists,
    Option.isSome_iff_exists] at h
  obtain ⟨n, h⟩ | ⟨n, h⟩ := h.2
  · exact .inl (begins_of_keywordAt h)
  · exact .inr (begins_of_keywordAt h)

theorem first_of_begins (h : Begins (c :: s)) : c.toLower = 'm' := by
  obtain letters | letters := h
  · exact (List.cons.inj letters).1
  · exact (List.cons.inj letters).1

/-- What is replaced is an `m` and some characters that are none. -/
theorem replacement_reads (h : Begins (c :: s)) : ∃ iri k,
    replacement (c :: s) = (iri, k + 1) ∧ (iri = medianIri ∨ iri = modeIri) ∧
      ∀ d ∈ s.take k, d.toLower ≠ 'm' := by
  cases keyword : found (c :: s) with
  | some r =>
    obtain ⟨known, d, inside, after, reads⟩ := reads_of_found keyword
    obtain ⟨rfl, rest⟩ := List.cons.inj reads.eq
    refine ⟨r.1, inside.length, ?_, known, ?_⟩
    · rw [replacement_of_found keyword, ← reads.length]
    · rw [rest, List.take_left]
      exact reads.later
  | none =>
    have noMedian : keywordAt median (c :: s) = none := by
      cases first : keywordAt median (c :: s) with
      | none => rfl
      | some n => simp [found, first] at keyword
    have noMode : keywordAt mode (c :: s) = none := by
      simpa [found, noMedian] using keyword
    have later {kw : Text} (plain : ∀ d ∈ kw, d ≠ 'm' ∧ d ≠ '<') (k : Nat)
        (letters : (s.take k).map Char.toLower = kw) : ∀ d ∈ s.take k, d.toLower ≠ 'm' :=
      fun d hd => (plain _ (letters ▸ List.mem_map_of_mem hd)).1
    unfold replacement
    rw [noMedian, noMode]
    dsimp only
    by_cases letters : ((c :: s).take median.length).map Char.toLower = median
    · rw [if_pos letters]
      exact ⟨medianIri, 5, rfl, .inl rfl, later tail_median 5 (List.cons.inj letters).2⟩
    · rw [if_neg letters]
      have other := h.resolve_left letters
      exact ⟨modeIri, 3, rfl, .inr rfl, later tail_mode 3 (List.cons.inj other).2⟩

theorem Words.quiet (h : Words m) (other : ∀ d ∈ (Marked.text m).take k, d.toLower ≠ 'm') :
    Marked.Quiet k m := by
  induction m generalizing k with
  | nil => simp [Marked.Quiet]
  | cons x m ih =>
    obtain ⟨c, b⟩ := x
    cases k with
    | zero => exact Marked.quiet_zero
    | succ k =>
      rw [Marked.text_cons, List.take_succ_cons] at other
      refine Marked.quiet_succ.mpr ⟨?_, ih h.2 fun d hd => other d (List.mem_cons_of_mem c hd)⟩
      by_contra marked
      exact other c List.mem_cons_self (first_of_begins (h.1 (Bool.not_eq_false _ ▸ marked)))

theorem Words.sound (h : Words m) : Marked.Sound replacement m := by
  induction m with
  | nil => exact True.intro
  | cons x m ih =>
    obtain ⟨c, b⟩ := x
    refine ⟨fun marked => ?_, ih h.2⟩
    obtain ⟨iri, k, eq, known, other⟩ := replacement_reads (h.1 marked)
    have differ : '<' ≠ c := by
      rintro rfl
      exact absurd (first_of_begins (h.1 marked)) (by decide)
    rw [eq]
    obtain ⟨rest, begins⟩ := head_iri known []
    rw [List.append_nil] at begins
    exact ⟨⟨'<', rest, begins, differ⟩, h.2.quiet other⟩

theorem words_markHits (previous : Option Char) (s : Text) : Words (markHits previous s) := by
  induction s generalizing previous with
  | nil => exact True.intro
  | cons c s ih =>
    refine ⟨fun marked => ?_, ih (some c)⟩
    rw [text_markHits]
    exact begins_of_hit marked

theorem text_markKeywords (ts : List Token) :
    Marked.text (markKeywords ts) = ts.flatMap Token.text := by
  induction ts with
  | nil => rfl
  | cons t later ih =>
    have plain (cs : Text) : (cs.map fun c => (c, false)).map Prod.fst = cs := by
      rw [List.map_map]
      exact List.map_id cs
    rw [Marked.text] at ih
    cases letters : t.text with
    | nil => rw [markKeywords, letters, List.flatMap_cons, letters, Marked.text, List.nil_append,
        List.nil_append, ih]
    | cons c cs =>
      rw [markKeywords, letters, List.flatMap_cons, letters, Marked.text, List.map_append,
        List.map_cons, plain, ih]

theorem words_plain (h : Words m) (cs : Text) : Words (cs.map (fun c => (c, false)) ++ m) := by
  induction cs with
  | nil => exact h
  | cons c cs ih => exact ⟨fun marked => absurd marked Bool.false_ne_true, ih⟩

theorem letters_of_keyword (h : isFunctionKeyword t later = true) :
    t.text.map Char.toLower = median ∨ t.text.map Char.toLower = mode := by
  rw [isFunctionKeyword, Bool.and_eq_true, Bool.and_eq_true, Bool.or_eq_true, decide_eq_true_eq,
    decide_eq_true_eq, decide_eq_true_eq] at h
  exact h.1.2

theorem words_markKeywords (ts : List Token) : Words (markKeywords ts) := by
  induction ts with
  | nil => exact True.intro
  | cons t later ih =>
    cases letters : t.text with
    | nil =>
      rw [markKeywords, letters]
      exact ih
    | cons c cs =>
      have whole := text_markKeywords (t :: later)
      rw [markKeywords, letters, List.cons_append, Marked.text_cons] at whole
      rw [markKeywords, letters]
      refine ⟨fun marked => ?_, words_plain ih cs⟩
      change Begins (c :: Marked.text (cs.map (fun c => (c, false)) ++ markKeywords later))
      rw [whole, List.flatMap_cons]
      have front {kw : Text} (h : t.text.map Char.toLower = kw) :
          ((t.text ++ later.flatMap Token.text).take kw.length).map Char.toLower = kw := by
        rw [List.take_left' (by rw [← h, List.length_map]), h]
      exact (letters_of_keyword marked).imp front front

/-- The scanner rewrites the text at a position. -/
def ScannerHit (s : Text) (i : Nat) : Prop :=
  ∃ front rest, s = front ++ rest ∧ front.length = i ∧ hit front.getLast? rest = true

/-- A function keyword begins at a position. -/
def FunctionKeyword (s : Text) (i : Nat) : Prop :=
  ∃ front t later, lex s = front ++ t :: later ∧ (front.flatMap Token.text).length = i ∧
    isFunctionKeyword t later = true

theorem mark_markHits : Marked.Mark (markHits previous s) i ↔
    ∃ front rest, s = front ++ rest ∧ front.length = i ∧
      hit (front.getLast?.or previous) rest = true := by
  induction s generalizing previous i with
  | nil =>
    constructor
    · rintro ⟨c, none'⟩
      cases none'
    · rintro ⟨front, rest, eq, -, marked⟩
      obtain ⟨rfl, rfl⟩ := List.append_eq_nil_iff.mp eq.symm
      rw [hit_eq, Bool.and_eq_true] at marked
      exact absurd marked.2 (by decide)
  | cons c s ih =>
    cases i with
    | zero =>
      constructor
      · rintro ⟨d, eq⟩
        rw [markHits, List.getElem?_cons_zero, Option.some.injEq, Prod.mk.injEq] at eq
        exact ⟨[], c :: s, rfl, rfl, eq.2⟩
      · rintro ⟨front, rest, eq, none', marked⟩
        rw [List.length_eq_zero_iff.mp none'] at eq marked
        rw [List.nil_append] at eq
        subst eq
        exact ⟨c, by rw [markHits, List.getElem?_cons_zero, ← marked]; rfl⟩
    | succ i =>
      have shift : Marked.Mark (markHits previous (c :: s)) (i + 1) ↔
          Marked.Mark (markHits (some c) s) i := by
        rw [Marked.Mark, markHits]
        rfl
      have last (front : Text) : (c :: front).getLast?.or previous =
          front.getLast?.or (some c) := by
        rw [List.getLast?_cons]
        cases front.getLast?
        all_goals rfl
      rw [shift, ih]
      constructor
      · rintro ⟨front, rest, rfl, rfl, marked⟩
        exact ⟨c :: front, rest, rfl, rfl, by rw [last, marked]⟩
      · rintro ⟨front, rest, eq, len, marked⟩
        cases front with
        | nil => cases len
        | cons d front =>
          obtain ⟨rfl, rfl⟩ := List.cons.inj eq
          rw [last] at marked
          exact ⟨front, rest, rfl, Nat.succ.inj len, marked⟩

theorem mark_markKeywords : Marked.Mark (markKeywords ts) i ↔
    ∃ front t later, ts = front ++ t :: later ∧ (front.flatMap Token.text).length = i ∧
      isFunctionKeyword t later = true := by
  induction ts generalizing i with
  | nil =>
    constructor
    · rintro ⟨c, none'⟩
      cases none'
    · rintro ⟨front, t, later, eq, -⟩
      exact absurd eq.symm (by simp)
  | cons t later ih =>
    have first : (∃ front u rest, t :: later = front ++ u :: rest ∧
          (front.flatMap Token.text).length = i ∧ isFunctionKeyword u rest = true) ↔
        (i = 0 ∧ isFunctionKeyword t later = true) ∨
        (t.text.length ≤ i ∧ ∃ front u rest, later = front ++ u :: rest ∧
          (front.flatMap Token.text).length = i - t.text.length ∧
            isFunctionKeyword u rest = true) := by
      constructor
      · rintro ⟨front, u, rest, eq, len, keyword⟩
        cases front with
        | nil =>
          obtain ⟨rfl, rfl⟩ := List.cons.inj eq
          exact .inl ⟨len.symm, keyword⟩
        | cons v front =>
          obtain ⟨rfl, rfl⟩ := List.cons.inj eq
          rw [List.flatMap_cons, List.length_append] at len
          exact .inr ⟨by omega, front, u, rest, rfl, by omega, keyword⟩
      · rintro (⟨rfl, keyword⟩ | ⟨long, front, u, rest, rfl, len, keyword⟩)
        · exact ⟨[], t, later, rfl, rfl, keyword⟩
        · refine ⟨t :: front, u, rest, rfl, ?_, keyword⟩
          rw [List.flatMap_cons, List.length_append]
          omega
    rw [first, ← ih]
    cases letters : t.text with
    | nil =>
      have other : isFunctionKeyword t later = false := by
        by_contra keyword
        have known := letters_of_keyword (Bool.not_eq_false _ ▸ keyword)
        rw [letters] at known
        exact absurd known (by decide)
      rw [markKeywords, letters, other]
      simp
    | cons c cs =>
      rw [markKeywords, letters, List.cons_append]
      cases i with
      | zero => simp [Marked.Mark]
      | succ i =>
        have plain : (cs.map fun c => (c, false)).length = cs.length := List.length_map _
        simp only [Marked.Mark, List.getElem?_cons_succ, List.length_cons, Nat.succ_ne_zero,
          false_and, false_or, Nat.succ_le_succ_iff, Nat.add_sub_add_right]
        by_cases inside : cs.length ≤ i
        · rw [List.getElem?_append_right (by rw [plain]; exact inside), plain]
          simp only [inside, true_and]
        · rw [List.getElem?_append_left (by rw [plain]; omega)]
          simp [inside]

/-- The query keeps its meaning if and only if the scanner takes for keywords exactly the function
keywords among the tokens. -/
theorem meaningPreserving_iff (s : Text) :
    MeaningPreserving s ↔ ∀ i, ScannerHit s i ↔ FunctionKeyword s i := by
  have same : Marked.text (markHits none s) = Marked.text (markKeywords (lex s)) := by
    rw [text_markHits, text_markKeywords, Lexer.flatMap_lex]
  have hits (i : Nat) : Marked.Mark (markHits none s) i ↔ ScannerHit s i := by
    rw [mark_markHits, ScannerHit]
    simp only [Option.or_none]
  have keywords (i : Nat) : Marked.Mark (markKeywords (lex s)) i ↔ FunctionKeyword s i :=
    mark_markKeywords
  constructor
  · rintro ⟨once, -⟩ i
    rw [preprocessArqAggregates_eq, Option.some.injEq] at once
    have marks : markHits none s = markKeywords (lex s) :=
      Marked.rewrite_inj same (words_markHits none s).sound (words_markKeywords (lex s)).sound
        Marked.quiet_zero Marked.quiet_zero (Utf8.bytes_injective once)
    rw [← hits, marks, keywords]
  · intro exactly
    have marks : markHits none s = markKeywords (lex s) := by
      refine Marked.eq_of_marks same fun i => ?_
      rw [hits, exactly, keywords]
    have result : rewritten s = out none s := by rw [rewritten, ← marks, out]
    rw [MeaningPreserving, result]
    exact ⟨preprocessArqAggregates_eq s, by rw [preprocessArqAggregates_eq, out_out]⟩

/-- The scanner rewrites a word inside a literal. -/
theorem not_meaningPreserving :
    ¬ MeaningPreserving "SELECT ?s \x7b ?s ?p 'the mode (of)' \x7d".toList := by
  rintro ⟨once, -⟩
  exact absurd once (by decide)

end Marks

end PgRipple.Sparql.Arq
