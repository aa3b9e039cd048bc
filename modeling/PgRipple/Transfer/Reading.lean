import PgRipple.Transfer.Encoding

/-!
# Reading what was written

The text of a term tells where the term ends, provided a blank or the end of the line
follows: an IRI at the first `>`, a literal at the first quote that is not escaped, a
blank node and a language tag at the blank. The parser reads every text that the
dictionary prints and encodes what `toRdf` says.
-/

namespace PgRipple.Transfer

open Storage Dictionary

/-- The text of a term. A plain literal may also be printed with its datatype. -/
inductive Writes : Node → Text → Prop where
  | iri (text : Text) : Writes (.iri text) ('<' :: (text ++ ['>']))
  | blank (id : Int) : Writes (.blank id) ('_' :: ':' :: dumpedLabel id)
  | literal (value : Text) :
      Writes (.literal value (xsd "string")) ('"' :: (escapeLiteral value ++ ['"']))
  | typed (value datatype : Text) : Writes (.literal value datatype)
      ('"' :: (escapeLiteral value ++ '"' :: '^' :: '^' :: '<' :: (datatype ++ ['>'])))
  | lang (value tag : Text) :
      Writes (.langLiteral value tag) ('"' :: (escapeLiteral value ++ '"' :: '@' :: tag))
  | quoted {s p o : Node} {ts tp to' : Text} (subject : Writes s ts) (predicate : Writes p tp)
      (object : Writes o to') : Writes (.quoted s p o)
      ('<' :: '<' :: ' ' :: (ts ++ ' ' :: (tp ++ ' ' :: (to' ++ [' ', '>', '>']))))

section Writing

variable {codec : Codec} {d : Dict} {id : Int} {n : Node} {t : Text}

/-- What the dictionary prints for an id. -/
theorem StandsFor.writes (h : StandsFor codec d id n) : Writes n (d.formatNtriples codec id) := by
  induction h with
  | @inline id negative prints =>
    rw [Dict.formatNtriples, if_pos negative, formatInline_eq]
    have text := Writes.typed (inlineParts codec.chrono id).1 (inlineParts codec.chrono id).2
    rw [escapeLiteral_plain prints.plain] at text
    simpa [writeTyped] using text
  | iri positive row normal =>
    simpa [Dict.formatNtriples, positive, row, formatNtriplesTerm] using Writes.iri _
  | blank positive row =>
    simpa [Dict.formatNtriples, positive, row, formatNtriplesTerm, dumpedLabel] using Writes.blank _
  | literal positive row =>
    simpa [Dict.formatNtriples, positive, row, formatNtriplesTerm] using Writes.literal _
  | typed positive row stored =>
    simpa [Dict.formatNtriples, positive, row, formatNtriplesTerm] using Writes.typed _ _
  | lang positive row =>
    simpa [Dict.formatNtriples, positive, row, formatNtriplesTerm] using Writes.lang _ _
  | quoted positive row subject predicate object ihS ihP ihO =>
    simpa [Dict.formatNtriples, positive, row, formatNtriplesTerm, canonicalText_eq] using
      Writes.quoted ihS ihP ihO

theorem StandsFor.normal (h : StandsFor codec d id n) : n.Normal codec := by
  induction h with
  | iri positive row normal => exact normal
  | quoted positive row subject predicate object ihS ihP ihO => exact ⟨ihS, ihP, ihO⟩
  | _ => trivial

theorem Writes.head (h : Writes n t) : ∃ c cs, t = c :: cs ∧ isWhitespace c = false ∧ c ≠ '#' := by
  cases h <;> exact ⟨_, _, rfl, by decide, by decide⟩

theorem Writes.trimStart_eq (h : Writes n t) (rest : Text) : trimStart (t ++ rest) = t ++ rest := by
  obtain ⟨c, cs, rfl, visible, -⟩ := h.head
  exact List.dropWhile_cons_of_neg (by simp [visible])

theorem trimStart_space (s : Text) : trimStart (' ' :: s) = trimStart s :=
  List.dropWhile_cons_of_pos rfl

theorem Writes.last (h : Writes n t) (wellFormed : n.WellFormed) :
    ∃ init c, t = init ++ [c] ∧ isWhitespace c = false := by
  cases h with
  | iri text => exact ⟨'<' :: text, '>', by simp, by decide⟩
  | blank id =>
    obtain ⟨init, c, snoc⟩ := (List.eq_nil_or_concat (dumpedLabel id)).resolve_left nofun
    refine ⟨'_' :: ':' :: init, c, by simp [snoc], ?_⟩
    have mem : c ∈ dumpedLabel id := by simp [snoc]
    obtain rfl | digit := List.mem_cons.mp mem
    · decide
    · exact isWhitespace_alphanum (mem_toString_int digit)
  | literal value => exact ⟨'"' :: escapeLiteral value, '"', by simp, by decide⟩
  | typed value datatype =>
    exact ⟨'"' :: (escapeLiteral value ++ '"' :: '^' :: '^' :: '<' :: datatype), '>', by simp,
      by decide⟩
  | lang value tag =>
    obtain rfl | ⟨init, c, snoc⟩ := List.eq_nil_or_concat tag
    · exact ⟨'"' :: (escapeLiteral value ++ ['"']), '@', by simp, by decide⟩
    · refine ⟨'"' :: (escapeLiteral value ++ '"' :: '@' :: init), c, by simp [snoc], ?_⟩
      exact isWhitespace_alphanum (wellFormed c (by simp [snoc]))
  | @quoted s p o ts tp to' subject predicate object =>
    exact ⟨'<' :: '<' :: ' ' :: (ts ++ ' ' :: (tp ++ ' ' :: (to' ++ [' ', '>']))), '>', by simp,
      by decide⟩

/-- Nothing that is written ends its line. -/
theorem newline_not_mem_escapeLiteral (value : Text) : '\n' ∉ escapeLiteral value := by
  rw [escapeLiteral]
  induction value with
  | nil => exact List.not_mem_nil
  | cons c cs ih =>
    cases coded : escapeCode c with
    | some k =>
      rw [Escape.escape_cons_some coded]
      have letter : '\n' ≠ k := by
        rintro rfl
        obtain h | h | h | h | h := escapeCode_eq_some coded <;> exact nomatch h.2
      simpa [letter] using ih
    | none =>
      rw [Escape.escape_cons_none coded]
      have other : '\n' ≠ c := by
        rintro rfl
        cases coded
      simpa [other] using ih

theorem IriText.newline_not_mem (h : IriText t) : '\n' ∉ t := by
  intro mem
  exact nomatch (h _ mem).2.2

theorem newline_not_mem_of_alphanum (chars : ∀ c ∈ t, c.isAlphanum ∨ c = '-') : '\n' ∉ t := by
  intro mem
  exact nomatch isWhitespace_alphanum (chars _ mem)

theorem Writes.newline_not_mem (h : Writes n t) (wellFormed : n.WellFormed) : '\n' ∉ t := by
  induction h with
  | iri text =>
    have := IriText.newline_not_mem wellFormed
    simp [this]
  | blank id =>
    have digits := newline_not_mem_of_alphanum fun c hc => mem_toString_int (v := id) hc
    simpa [dumpedLabel] using digits
  | literal value =>
    have := newline_not_mem_escapeLiteral value
    simp [this]
  | typed value datatype =>
    have text := newline_not_mem_escapeLiteral value
    have := IriText.newline_not_mem wellFormed
    simp [this, text]
  | lang value tag =>
    have text := newline_not_mem_escapeLiteral value
    have := newline_not_mem_of_alphanum wellFormed
    simp [this, text]
  | quoted subject predicate object ihS ihP ihO =>
    have := ihS wellFormed.1
    have := ihP wellFormed.2.1
    have := ihO wellFormed.2.2
    simp [*]

end Writing

section Parsing

variable {codec : Codec} {session : Session} {generation : Int} {n : Node} {t rest : Text}
  {fuel : Nat}

/-- What may follow a term. -/
def Ends (rest : Text) : Prop := rest = [] ∨ rest.head? = some ' '

theorem ends_space (rest : Text) : Ends (' ' :: rest) := .inr rfl

theorem Ends.takeWhile (ends : Ends rest) (dark : ∀ c ∈ t, isWhitespace c = false) :
    (t ++ rest).takeWhile (fun c => !isWhitespace c) = t ∧
      (t ++ rest).dropWhile (fun c => !isWhitespace c) = rest := by
  have all : ∀ c ∈ t, (!isWhitespace c) = true := by simpa using dark
  rw [List.takeWhile_append_of_pos all, List.dropWhile_append_of_pos all]
  obtain rfl | space := ends
  · simp
  · obtain ⟨cs, rfl⟩ := List.head?_eq_some_iff.mp space
    have blank : isWhitespace ' ' = true := rfl
    simp [blank]

theorem encoded_andThen {α : Type} (r : Int × Dict) (next : Int → Text → Dict → Option α × Dict) :
    (encoded rest r).andThen next = next r.1 rest r.2 := rfl

theorem parse_literal_plain (ends : Ends rest) (value : Text) (d : Dict) :
    parseNtStarLiteral codec session (escapeLiteral value ++ '"' :: rest) d =
      encoded rest (d.encode codec session (replaceLookalikes value) .literal) := by
  rw [parseNtStarLiteral, closingQuote_escapeLiteral]
  dsimp only
  rw [unescape_escapeLiteral]
  obtain rfl | space := ends
  · rfl
  · obtain ⟨cs, rfl⟩ := List.head?_eq_some_iff.mp space
    rfl

theorem parse_literal_typed {datatype : Text} (wellFormed : IriText datatype) (value : Text)
    (d : Dict) :
    parseNtStarLiteral codec session
        (escapeLiteral value ++ '"' :: '^' :: '^' :: '<' :: (datatype ++ '>' :: rest)) d =
      encoded rest
        (if datatype = xsd "string" then d.encode codec session (replaceLookalikes value) .literal
        else d.encodeTypedLiteral codec session (replaceLookalikes value) datatype) := by
  have closed : Split.splitOnce ['>'] (datatype ++ '>' :: rest) = some (datatype, rest) :=
    Split.splitOnce_marked fun mem => (wellFormed _ mem).2.1 rfl
  have marked : "^^<".toList.isPrefixOf? ('^' :: '^' :: '<' :: (datatype ++ '>' :: rest)) =
      some (datatype ++ '>' :: rest) := rfl
  rw [parseNtStarLiteral, closingQuote_escapeLiteral]
  simp only [unescape_escapeLiteral, marked, closed]
  split <;> rfl

theorem parse_literal_lang (ends : Ends rest) {tag : Text}
    (wellFormed : ∀ c ∈ tag, c.isAlphanum ∨ c = '-') (value : Text) (d : Dict) :
    parseNtStarLiteral codec session (escapeLiteral value ++ '"' :: '@' :: (tag ++ rest)) d =
      encoded rest (d.encodeLangLiteral codec session (replaceLookalikes value) tag) := by
  obtain ⟨taken, dropped⟩ := ends.takeWhile fun c hc => isWhitespace_alphanum (wellFormed c hc)
  have unmarked : "^^<".toList.isPrefixOf? ('@' :: (tag ++ rest)) = none := rfl
  rw [parseNtStarLiteral, closingQuote_escapeLiteral]
  simp only [unescape_escapeLiteral, unmarked, taken, dropped]

theorem parse_iri {text : Text} (wellFormed : IriText text) (rest : Text) (d : Dict) :
    parseNtStarTerm codec session generation (fuel + 1) ('<' :: (text ++ '>' :: rest)) d =
      encoded rest (d.encode codec session text .iri) := by
  have closed : Split.splitOnce ['>'] (text ++ '>' :: rest) = some (text, rest) :=
    Split.splitOnce_marked fun mem => (wellFormed _ mem).2.1 rfl
  have single : ∀ r, text ++ '>' :: rest ≠ '<' :: r := by
    intro r same
    cases text with
    | nil => cases same
    | cons c cs => exact (wellFormed c List.mem_cons_self).1 (List.cons.inj same).1
  have trimmed : trimStart ('<' :: (text ++ '>' :: rest)) = '<' :: (text ++ '>' :: rest) := rfl
  rw [parseNtStarTerm, trimmed]
  split
  · rename_i inner same
    exact absurd (List.cons.inj same).2 (single inner)
  · rename_i r _ same
    cases same
    simp only [closed]
  · rename_i same
    cases same
  · rename_i same
    cases same
  · rename_i other _ _
    exact absurd rfl (other _)

/-- The parser reads a term and leaves what follows it. -/
theorem Writes.parse (h : Writes n t) (wellFormed : n.WellFormed) (enough : t.length < fuel)
    (ends : Ends rest) (d : Dict) :
    parseNtStarTerm codec session generation fuel (t ++ rest) d =
      encoded rest (d.encodeRdfTerm codec session (n.toRdf generation)) := by
  induction h generalizing fuel rest d with
  | iri text =>
    obtain ⟨fuel, rfl⟩ := Nat.exists_eq_succ_of_ne_zero (Nat.ne_zero_of_lt enough)
    have text : '<' :: (text ++ ['>']) ++ rest = '<' :: (text ++ '>' :: rest) := by simp
    rw [text]
    exact parse_iri wellFormed rest d
  | blank id =>
    obtain ⟨fuel, rfl⟩ := Nat.exists_eq_succ_of_ne_zero (Nat.ne_zero_of_lt enough)
    have dark : ∀ c ∈ dumpedLabel id, isWhitespace c = false := by
      intro c hc
      obtain rfl | digit := List.mem_cons.mp hc
      · rfl
      · exact isWhitespace_alphanum (mem_toString_int digit)
    obtain ⟨taken, dropped⟩ := ends.takeWhile dark
    have trimmed : trimStart ('_' :: ':' :: dumpedLabel id ++ rest) =
      '_' :: ':' :: (dumpedLabel id ++ rest) := rfl
    rw [parseNtStarTerm, trimmed]
    simp only [taken, dropped]
    rfl
  | literal value =>
    obtain ⟨fuel, rfl⟩ := Nat.exists_eq_succ_of_ne_zero (Nat.ne_zero_of_lt enough)
    have trimmed : trimStart ('"' :: (escapeLiteral value ++ ['"']) ++ rest) =
        '"' :: (escapeLiteral value ++ '"' :: rest) := by
      rw [List.cons_append, List.append_assoc]
      rfl
    rw [parseNtStarTerm, trimmed]
    simp only [parse_literal_plain ends, Node.toRdf, if_true, Dict.encodeRdfTerm]
  | typed value datatype =>
    obtain ⟨fuel, rfl⟩ := Nat.exists_eq_succ_of_ne_zero (Nat.ne_zero_of_lt enough)
    have trimmed : trimStart
        ('"' :: (escapeLiteral value ++ '"' :: '^' :: '^' :: '<' :: (datatype ++ ['>'])) ++ rest) =
          '"' :: (escapeLiteral value ++ '"' :: '^' :: '^' :: '<'
            :: (datatype ++ '>' :: rest)) := by
      simp only [List.cons_append, List.append_assoc, List.nil_append]
      rfl
    rw [parseNtStarTerm, trimmed]
    simp only [parse_literal_typed wellFormed, Node.toRdf]
    split <;> rfl
  | lang value tag =>
    obtain ⟨fuel, rfl⟩ := Nat.exists_eq_succ_of_ne_zero (Nat.ne_zero_of_lt enough)
    have trimmed : trimStart ('"' :: (escapeLiteral value ++ '"' :: '@' :: tag) ++ rest) =
        '"' :: (escapeLiteral value ++ '"' :: '@' :: (tag ++ rest)) := by
      simp only [List.cons_append, List.append_assoc]
      rfl
    rw [parseNtStarTerm, trimmed]
    simp only [parse_literal_lang ends wellFormed, Node.toRdf, Dict.encodeRdfTerm]
  | @quoted s p o ts tp to' subject predicate object ihS ihP ihO =>
    obtain ⟨fuel, rfl⟩ := Nat.exists_eq_succ_of_ne_zero (Nat.ne_zero_of_lt enough)
    simp only [List.length_cons, List.length_append] at enough
    have readS (r : Text) (d : Dict) := ihS wellFormed.1 (by omega : ts.length < fuel)
        (ends_space r) d
    have readP (r : Text) (d : Dict) := ihP wellFormed.2.1 (by omega : tp.length < fuel)
        (ends_space r) d
    have readO (r : Text) (d : Dict) := ihO wellFormed.2.2 (by omega : to'.length < fuel)
        (ends_space r) d
    have closed : trimStart (' ' :: '>' :: '>' :: rest) = '>' :: '>' :: rest := rfl
    have trimmed : trimStart
        ('<' :: '<' :: ' ' :: (ts ++ ' ' :: (tp ++ ' ' :: (to' ++ [' ', '>', '>']))) ++ rest) =
          '<' :: '<' :: ' ' :: (ts ++ ' ' :: (tp ++ ' '
            :: (to' ++ ' ' :: '>' :: '>' :: rest))) := by
      simp only [List.cons_append, List.append_assoc, List.nil_append]
      rfl
    rw [parseNtStarTerm, trimmed]
    simp only [closed, trimStart_space, subject.trimStart_eq, predicate.trimStart_eq,
      object.trimStart_eq, readS, readP, readO, encoded_andThen, Node.toRdf, Dict.encodeRdfTerm]

end Parsing

section Lines

variable {codec : Codec} {session : Session} {generation : Int} {d : Dict} {id : Int}
  {n ns np no : Node} {t ts tp to' : Text}

/-- The labels that are printed pass the check. -/
theorem StandsFor.safeNtTerm_eq (h : StandsFor codec d id n) (labelHash : Text → Nat) :
    safeNtTerm codec labelHash d id = d.formatNtriples codec id := by
  have written := h.writes
  rw [safeNtTerm]
  generalize d.formatNtriples codec id = text at written
  split
  · rename_i blank
    cases written with
    | blank id =>
      have label : ∀ c ∈ (toString id).toList, (labelStart c || c = '.' || c = '-') = true := by
        intro c hc
        obtain letter | rfl := mem_toString_int hc
        · simp [labelStart, letter]
        · rfl
      have valid : (labelStart 'b' && (toString id).toList.all
          fun c => labelStart c || c = '.' || c = '-') = true := by
        rw [Bool.and_eq_true]
        exact ⟨rfl, List.all_eq_true.mpr label⟩
      rw [validateBnodeLabel, dumpedLabel, List.drop_succ_cons, List.drop_succ_cons, List.drop_zero]
      exact if_pos valid
    | _ => cases blank
  · rfl

theorem trimEnd_concat {c : Char} (s : Text) (visible : isWhitespace c = false) :
    trimEnd (s ++ [c]) = s ++ [c] :=
  List.rdropWhile_concat_neg _ _ _ (by simp [visible])

/-- A line as it is written, without its line feed. -/
def lineText (ts tp to' : Text) : Text := ts ++ ' ' :: (tp ++ ' ' :: (to' ++ [' ', '.']))

theorem exportLine_eq {q : Quad} (subject : StandsFor codec d q.s ns)
    (object : StandsFor codec d q.o no) (labelHash : Text → Nat) :
    exportLine codec labelHash d q = lineText (d.formatNtriples codec q.s)
      (d.formatNtriples codec q.p) (d.formatNtriples codec q.o) := by
  rw [exportLine, subject.safeNtTerm_eq, object.safeNtTerm_eq, lineText]
  simp

theorem trim_lineText (subject : Writes ns ts) :
    trim (lineText ts tp to') = lineText ts tp to' := by
  obtain ⟨c, cs, rfl, visible, -⟩ := subject.head
  have last : (lineText (c :: cs) tp to').getLast? = some '.' := by
    simp [lineText, List.getLast?_append, List.getLast?_cons]
  exact trim_eq_self rfl last visible rfl

theorem parse_lineText (subject : Writes ns ts) (predicate : Writes np tp) (object : Writes no to')
    (wellFormedS : ns.WellFormed) (wellFormedP : np.WellFormed) (wellFormedO : no.WellFormed)
    (d : Dict) :
    parseNtStarFullLine codec session generation (lineText ts tp to') d =
      let r := d.encodeRdfTerm codec session (ns.toRdf generation)
      let r' := r.2.encodeRdfTerm codec session (np.toRdf generation)
      let r'' := r'.2.encodeRdfTerm codec session (no.toRdf generation)
      (some (r.1, r'.1, r''.1), r''.2) := by
  let front := ts ++ ' ' :: (tp ++ ' ' :: (to' ++ [' ']))
  let line := ts ++ ' ' :: (tp ++ ' ' :: to')
  have dotted : lineText ts tp to' = front ++ ['.'] := by simp [lineText, front]
  have stripped : stripDot (trimEnd (lineText ts tp to')) = some front := by
    rw [dotted, trimEnd_concat _ rfl, stripDot]
    simp
  have trimmed : trimEnd front = line := by
    obtain ⟨init, c, rfl, visible⟩ := object.last wellFormedO
    have spaced : front = ts ++ ' ' :: (tp ++ ' ' :: (init ++ [c])) ++ [' '] := by simp [front]
    have closed : line = (ts ++ ' ' :: (tp ++ ' ' :: init)) ++ [c] := by simp [line]
    have dropped : trimEnd front = trimEnd line := by
      rw [spaced]
      exact List.rdropWhile_concat_pos _ _ _ rfl
    rw [dropped, closed, trimEnd_concat _ visible]
  have lengths : ts.length < line.length + 1 ∧ tp.length < line.length + 1 ∧
      to'.length < line.length + 1 := by
    simp only [line, List.length_append, List.length_cons]
    omega
  rw [parseNtStarFullLine, stripped]
  simp only [trimmed]
  generalize line.length + 1 = fuel at lengths
  obtain ⟨enoughS, enoughP, enoughO⟩ := lengths
  have readO (d : Dict) : parseNtStarTerm codec session generation fuel to' d =
      encoded [] (d.encodeRdfTerm codec session (no.toRdf generation)) := by
    simpa using object.parse wellFormedO enoughO (.inl rfl) d
  have trimmedO : trimStart to' = to' := by simpa using object.trimStart_eq []
  simp only [line, subject.parse wellFormedS enoughS (ends_space _),
    predicate.parse wellFormedP enoughP (ends_space _), readO, encoded_andThen, trimStart_space,
    predicate.trimStart_eq, trimmedO]

end Lines

end PgRipple.Transfer
