import PgRipple.Dictionary.Tokens
import PgRipple.Transfer.Restore

/-!
# Reading a quoted triple back

The dictionary keeps the text of a quoted triple, `<< s p o >>`, and `encode_rdf_term`
encodes such a text by splitting its inside into terms and encoding these. It returns the
triple it was given exactly if the inside is split into the texts of the three components,
here and in every quoted triple inside, and if the components themselves come back: a
literal does unless it holds a lookalike of an escape, and a blank node only if it is
stored under the label that is printed for it.
-/

namespace PgRipple.Transfer

open Dictionary

/-- The text between `<<` and `>>`. -/
def quotedInner (s : Text) : Option Text :=
  if "<<".toList.isPrefixOf s ∧ ">>".toList.isSuffixOf s then
    some (trim ((s.drop 2).take (s.length - 4)))
  else none

/-- What `encode_rdf_term` encodes if there are not three tokens. -/
def readSimpleTerm (s : Text) : Option RdfTerm :=
  (parseRdfTerm s).map fun (value, kind, datatype, lang) =>
    match kind with
    | .typedLiteral => .typed value (datatype.getD [])
    | .langLiteral => .lang value (lang.getD [])
    | _ => .plain value kind

/-- The term that `encode_rdf_term` encodes. `none` is a panic, or a lack of fuel. -/
def readTermTo : (fuel : Nat) → Text → Option RdfTerm
  | 0, _ => none
  | fuel + 1, text =>
    let s := trim text
    match (quotedInner s).map tokenizeRdfTerms with
    | some (t₀ :: t₁ :: t₂ :: ts) => do
      let s ← readTermTo fuel t₀
      let p ← readTermTo fuel t₁
      let o ← readTermTo fuel ([' '].intercalate (t₂ :: ts))
      some (.quoted s p o)
    | _ => readSimpleTerm s

/-- Tokens are shorter than the text, so its length is enough fuel. -/
def readRdfTerm (text : Text) : Option RdfTerm := readTermTo (text.length + 1) text

/-- `encode_rdf_term` of a text. A panic aborts the transaction, so it makes no difference that
here all terms are read before the first is encoded. -/
def encodeTermText (codec : Codec) (session : Session) (text : Text) (d : Dict) :
    Option (Int × Dict) :=
  (readRdfTerm text).map fun t => d.encodeRdfTerm codec session t

section Fuel

variable {text s : Text} {fuel fuel' : Nat}

theorem length_intercalate_le (ts : List Text) :
    ([' '].intercalate ts).length ≤ (ts.map List.length).sum + ts.length := by
  induction ts with
  | nil => simp
  | cons t ts ih =>
    cases ts with
    | nil => simp
    | cons t' ts =>
      rw [List.intercalate_cons_cons]
      simp only [List.length_append, List.length_cons, List.length_nil, List.map_cons,
        List.sum_cons] at ih ⊢
      omega

theorem length_quotedInner {inner : Text} (h : quotedInner s = some inner) :
    inner.length ≤ s.length - 4 := by
  rw [quotedInner] at h
  split at h
  · cases h
    exact (length_trim_le _).trans (List.length_take_le _ _)
  · cases h

/-- The texts that are read inside a quoted triple are shorter. -/
theorem length_lt_of_tokens {t₀ t₁ t₂ : Text} {ts : List Text}
    (split : (quotedInner (trim text)).map tokenizeRdfTerms = some (t₀ :: t₁ :: t₂ :: ts)) :
    t₀.length < text.length ∧ t₁.length < text.length ∧
      ([' '].intercalate (t₂ :: ts)).length < text.length := by
  obtain ⟨inner, found, tokens⟩ := Option.map_eq_some_iff.mp split
  have short := length_quotedInner found
  have total := length_tokenizeRdfTerms_le inner
  have trimmed := length_trim_le text
  have joined := length_intercalate_le (t₂ :: ts)
  rw [tokens] at total
  simp only [List.map_cons, List.sum_cons, List.length_cons] at total joined
  omega

theorem readTermTo_eq (enough : text.length < fuel) (enough' : text.length < fuel') :
    readTermTo fuel text = readTermTo fuel' text := by
  induction fuel generalizing fuel' text with
  | zero => cases enough
  | succ fuel ih =>
    obtain ⟨fuel', rfl⟩ := Nat.exists_eq_succ_of_ne_zero (Nat.ne_zero_of_lt enough')
    rw [readTermTo, readTermTo]
    split
    · rename_i split
      obtain ⟨first, second, third⟩ := length_lt_of_tokens split
      have same {t : Text} (short : t.length < text.length) :
          readTermTo fuel t = readTermTo fuel' t := ih (by omega) (by omega)
      rw [same first, same second, same third]
    · rfl

/-- A text whose inside has three tokens or more. -/
theorem readRdfTerm_of_tokens {t₀ t₁ t₂ : Text} {ts : List Text}
    (split : (quotedInner (trim text)).map tokenizeRdfTerms = some (t₀ :: t₁ :: t₂ :: ts)) :
    readRdfTerm text = (readRdfTerm t₀).bind fun s => (readRdfTerm t₁).bind fun p =>
      (readRdfTerm ([' '].intercalate (t₂ :: ts))).bind fun o => some (.quoted s p o) := by
  obtain ⟨first, second, third⟩ := length_lt_of_tokens split
  have enough {t : Text} (short : t.length < text.length) :
      readTermTo text.length t = readRdfTerm t := readTermTo_eq short (Nat.lt_succ_self _)
  rw [readRdfTerm, readTermTo, split]
  simp only [enough first, enough second, enough third]
  rfl

theorem readRdfTerm_simple (simple : quotedInner (trim text) = none) :
    readRdfTerm text = readSimpleTerm (trim text) := by
  rw [readRdfTerm, readTermTo, simple]
  rfl

end Fuel

section Nested

variable (codec : Codec) (session : Session) (d : Dict)

/-- The components of a quoted triple, and what they quote. -/
def Inside (q : Int × Int × Int) (id : Int) : Prop :=
  ∃ c ∈ [q.1, q.2.1, q.2.2], Relation.ReflTransGen d.Quotes c id

def QuotedAs (id : Int) (q : Int × Int × Int) : Prop :=
  isInline id = false ∧ ∃ info, d.decodeFull id = some info ∧ info.quotedTriple = some q

/-- A quoted triple and those inside it. -/
def Nested (q q' : Int × Int × Int) : Prop := q' = q ∨ ∃ id, Inside d q id ∧ QuotedAs d id q'

/-- The text that `encode_quoted_triple` builds. -/
def tripleText (q : Int × Int × Int) : Text := canonicalText codec d q.1 q.2.1 q.2.2

/-- `tokenize_rdf_terms` splits the inside of the text into the texts of the components. -/
def SplitsRight (q : Int × Int × Int) : Prop :=
  (quotedInner (tripleText codec d q)).map tokenizeRdfTerms =
    some [d.formatNtriples codec q.1, d.formatNtriples codec q.2.1, d.formatNtriples codec q.2.2]

/-- The text of a quoted triple is encoded as the quoted triple, and each text that is split on
the way is split into the texts of the components. -/
structure TripleRoundTrips (q : Int × Int × Int) : Prop where
  splits : ∀ q', Nested d q q' → SplitsRight codec d q'
  returns : (encodeTermText codec session (tripleText codec d q)
      (d.encodeQuotedTriple codec session q.1 q.2.1 q.2.2).2).map Prod.fst =
    some (d.encodeQuotedTriple codec session q.1 q.2.1 q.2.2).1

/-- Read alone, the texts of subject and predicate meet no blank with all flags clear, and leave
the flags clear; that of the object meets no such blank. -/
def Separable (q : Int × Int × Int) : Prop :=
  Closed (d.formatNtriples codec q.1) ∧ Closed (d.formatNtriples codec q.2.1) ∧
    Unbroken (d.formatNtriples codec q.2.2)

/-- A literal without a lookalike of an escape, or a blank node that is stored under the label
that is printed for it; or any other term. -/
def Survives (id : Int) : Prop :=
  isInline id = false → ∀ info, d.decodeFull id = some info →
    match info.kind with
    | .blank => codec.normalize (dumpedLabel id) = info.value
    | .literal | .typedLiteral | .langLiteral => Dictionary.NoLookalike info.value
    | .iri | .quotedTriple => True

/-- All that is hashed when the triple is encoded and read back. -/
def rereadEntries (q : Int × Int × Int) : List Entry :=
  .quoted q.1 q.2.1 q.2.2 :: ((readRdfTerm (tripleText codec d q)).map fun t =>
    entries codec session t (d.encodeQuotedTriple codec session q.1 q.2.1 q.2.2).2).getD []

end Nested

/-- Printed times are in UTC. -/
def PrintsUtc (chrono : Chrono) : Prop :=
  ∀ m, Fits m → hasNonzeroOffset (trim (chrono.formatMicros m)) = false

section Splitting

variable {codec : Codec} {d : Dict} {n ns np no : Node} {t ts tp to' : Text} {s p o : Int}

/-- Texts of terms have no blanks at their ends. -/
theorem Writes.solid (h : Writes n t) (wellFormed : n.WellFormed) : Solid t := by
  obtain ⟨c, cs, begins, dark, -⟩ := h.head
  obtain ⟨init, last, ends, dark'⟩ := h.last wellFormed
  have head : t.head? = some c := by
    rw [begins]
    rfl
  have tail : t.getLast? = some last := by rw [ends, List.getLast?_concat]
  exact ⟨⟨c, head, dark⟩, trim_eq_self head tail dark dark'⟩

theorem tripleText_eq (codec : Codec) (d : Dict) (s p o : Int) :
    tripleText codec d (s, p, o) =
      '<' :: '<' :: ' ' :: ((d.formatNtriples codec s ++ ' ' :: (d.formatNtriples codec p ++
        ' ' :: d.formatNtriples codec o)) ++ [' ', '>', '>']) := by
  simp [tripleText, canonicalText_eq]

theorem trim_tripleText : trim (tripleText codec d (s, p, o)) = tripleText codec d (s, p, o) := by
  rw [tripleText_eq]
  have tail : ('<' :: '<' :: ' ' :: ((d.formatNtriples codec s ++ ' ' ::
      (d.formatNtriples codec p ++ ' ' :: d.formatNtriples codec o)) ++ [' ', '>', '>'])).getLast? =
        some '>' := by
    simp [List.getLast?_cons]
  exact trim_eq_self rfl tail rfl rfl

theorem trim_padded {core : Text} {last : Char} (begins : Begins (core ++ [last]))
    (dark : isWhitespace last = false) :
    trim (' ' :: (core ++ [last] ++ [' '])) = core ++ [last] := by
  have front : (' ' :: (core ++ [last] ++ [' '])).dropWhile isWhitespace =
      core ++ [last] ++ [' '] :=
    (List.dropWhile_cons_of_pos rfl).trans (begins.append [' ']).dropWhile_eq
  rw [trim, front, List.rdropWhile_concat_pos _ _ _ rfl,
    List.rdropWhile_concat_neg _ _ _ (by simp [dark])]

/-- The inside of the text, without the blanks at its ends. -/
theorem quotedInner_tripleText {init : Text} {last : Char}
    (subject : Begins (d.formatNtriples codec s))
    (object : d.formatNtriples codec o = init ++ [last]) (dark : isWhitespace last = false) :
    quotedInner (tripleText codec d (s, p, o)) =
      some (d.formatNtriples codec s ++ ' ' :: (d.formatNtriples codec p ++
        ' ' :: d.formatNtriples codec o)) := by
  let core := d.formatNtriples codec s ++ ' ' :: (d.formatNtriples codec p ++ ' ' :: init)
  have snoc : d.formatNtriples codec s ++ ' ' :: (d.formatNtriples codec p ++
      ' ' :: d.formatNtriples codec o) = core ++ [last] := by
    simp [core, object]
  have begins : Begins (core ++ [last]) := by
    rw [← snoc]
    exact subject.append _
  have closed : ">>".toList <:+ '<' :: '<' :: ' ' :: (core ++ [last] ++ [' ', '>', '>']) :=
    ⟨'<' :: '<' :: ' ' :: (core ++ [last] ++ [' ']), by simp⟩
  rw [tripleText_eq, snoc, quotedInner, if_pos ⟨rfl, List.isSuffixOf_iff_suffix.mpr closed⟩]
  have inner : (('<' :: '<' :: ' ' :: (core ++ [last] ++ [' ', '>', '>'])).drop 2).take
      (('<' :: '<' :: ' ' :: (core ++ [last] ++ [' ', '>', '>'])).length - 4) =
        ' ' :: (core ++ [last] ++ [' ']) := by
    have parts : ('<' :: '<' :: ' ' :: (core ++ [last] ++ [' ', '>', '>'])).drop 2 =
        (' ' :: (core ++ [last] ++ [' '])) ++ ['>', '>'] := by simp
    rw [parts]
    apply List.take_left'
    simp only [List.length_append, List.length_cons, List.length_nil]
    omega
  rw [inner, trim_padded begins dark]

/-- The inside is split right exactly if each text is separable. -/
theorem splitsRight_iff (subject : StandsFor codec d s ns) (predicate : StandsFor codec d p np)
    (object : StandsFor codec d o no) (wellFormedS : ns.WellFormed) (wellFormedP : np.WellFormed)
    (wellFormedO : no.WellFormed) :
    SplitsRight codec d (s, p, o) ↔ Separable codec d (s, p, o) := by
  have solidS := subject.writes.solid wellFormedS
  have solidP := predicate.writes.solid wellFormedP
  have solidO := object.writes.solid wellFormedO
  obtain ⟨init, last, ends, dark⟩ := object.writes.last wellFormedO
  rw [SplitsRight, quotedInner_tripleText solidS.front ends dark, Option.map_some,
    Option.some.injEq]
  exact tokenizeRdfTerms_eq_iff solidS solidP solidO

end Splitting

/-- What is read where a literal was written. -/
def literalTerm (value : Text) : LiteralTag → RdfTerm
  | .plain => .plain value .literal
  | .datatype iri => .typed value iri
  | .lang tag => .lang value tag.text

section Reading

variable {codec : Codec} {d : Dict} {id s p o : Int} {n : Node}

theorem readRdfTerm_literal (value : Text) (a : LiteralTag) (id : Int) :
    readRdfTerm (formatNtriplesTerm value a.kind a.datatypeIri a.langTag id) =
      some (literalTerm (replaceLookalikes value) a) := by
  have parsed := parse_format_literal value a id
  have trimmed : trim (formatNtriplesTerm value a.kind a.datatypeIri a.langTag id) =
      formatNtriplesTerm value a.kind a.datatypeIri a.langTag id := by
    rw [format_literal]
    obtain ⟨last, isLast, dark⟩ := getLast_suffix a ('"' :: escapeLiteral value)
    exact trim_eq_self rfl isLast rfl dark
  have simple : quotedInner (formatNtriplesTerm value a.kind a.datatypeIri a.langTag id)
      = none := by
    rw [format_literal, quotedInner]
    apply if_neg
    rintro ⟨opens, -⟩
    cases opens
  rw [readRdfTerm_simple (by rw [trimmed, simple]), trimmed, readSimpleTerm, parsed]
  cases a <;> rfl

theorem readRdfTerm_iri {text : Text} (wellFormed : IriText text) :
    readRdfTerm ('<' :: (text ++ ['>'])) = some (.plain text .iri) := by
  have trimmed : trim ('<' :: (text ++ ['>'])) = '<' :: (text ++ ['>']) :=
    trim_eq_self rfl (getLast?_cons_concat '<' '>' text) rfl rfl
  have simple : quotedInner ('<' :: (text ++ ['>'])) = none := by
    rw [quotedInner]
    apply if_neg
    rintro ⟨opens, -⟩
    cases text with
    | nil => cases opens
    | cons c cs =>
      obtain ⟨rest, same⟩ := List.isPrefixOf_iff_prefix.mp opens
      have bracket : '<' = c := (List.cons.inj (List.cons.inj same).2).1
      exact (wellFormed c List.mem_cons_self).1 bracket.symm
  have parsed : parseRdfTerm ('<' :: (text ++ ['>'])) = some (text, .iri, none, none) :=
    parse_format_iri text 0
  rw [readRdfTerm_simple (by rw [trimmed, simple]), trimmed, readSimpleTerm, parsed]
  rfl

theorem readRdfTerm_blank (id : Int) :
    readRdfTerm ('_' :: ':' :: dumpedLabel id) = some (.plain (dumpedLabel id) .blank) := by
  have solid := (Writes.blank id).solid trivial
  have simple : quotedInner ('_' :: ':' :: dumpedLabel id) = none := by
    rw [quotedInner]
    apply if_neg
    rintro ⟨opens, -⟩
    cases opens
  rw [readRdfTerm_simple (by rw [solid.trimmed, simple]), solid.trimmed, readSimpleTerm,
    parseRdfTerm, solid.trimmed]
  rfl

end Reading

section Returns

variable {codec : Codec} {session : Session} {es es' : List Entry} {d D : Dict} {id s p o : Int}
  {n ns np no : Node} {a b c : RdfTerm} {e e₀ : Entry}

theorem Entry.info_inj {d' : Dict} (same : e.info codec d = e₀.info codec d') : e = e₀ := by
  cases e <;> cases e₀ <;> simp_all [Entry.info]

/-- A row that reads like that of an entry is the entry's. -/
theorem Filled.stored_of_decodeFull (h : Filled codec es d)
    (row : d.decodeFull id = some (e.info codec d)) : e ∈ es ∧ d.Stored (e.hash codec) id := by
  obtain ⟨r, found, info⟩ := Option.map_eq_some_iff.mp row
  have hr := List.mem_of_find?_eq_some found
  have named : r.id = id := by simpa using List.find?_some found
  obtain ⟨e', he', hashed, info'⟩ := h.entry r hr
  have same : e' = e := Entry.info_inj (info'.symm.trans info)
  rw [same] at he' hashed
  exact ⟨he', r, hr, hashed, named⟩

/-- With no collisions, encoding an entry returns the id of a row exactly if the row is of an
entry with the same input. -/
theorem Filled.encodeTiers_eq_iff (h : Filled codec es D) (collisionFree : NoCollision codec es)
    (session : Session) (listed : e ∈ es) (known : e.ComponentsKnown D) (listed₀ : e₀ ∈ es)
    (stored : D.Stored (e₀.hash codec) id) :
    (D.encodeTiers session (e.hash codec) (e.info codec D)).1 = id ↔ e.input = e₀.input := by
  obtain ⟨filled, extended, r, hr, hashed, named⟩ := h.encodeTiers session listed known
  obtain ⟨r₀, hr₀, hashed₀, named₀⟩ := extended.stored stored
  constructor
  · intro same
    have row : r = r₀ := filled.unique r hr r₀ hr₀ (named.trans (same.trans named₀.symm))
    rw [row, hashed₀] at hashed
    exact collisionFree e listed e₀ listed₀ hashed.symm
  · intro same
    have hashes : e.hash codec = e₀.hash codec := by
      rw [Entry.hash, Entry.hash, same]
    have row : r = r₀ := UniqueTable.eq_of_key_eq _ hr hr₀
        (hashed.trans (hashes.trans hashed₀.symm))
    rw [← named, row, named₀]

/-- In any later state, encoding the term returns the id exactly if all that the id stands for
survives. -/
def ReturnsIfSurviving (codec : Codec) (session : Session) (d : Dict) (es : List Entry) (id : Int)
    (t : RdfTerm) : Prop :=
  ∀ es' D, (∀ e ∈ es, e ∈ es') → NoCollision codec es' → Filled codec es' D → Dict.Extends d D →
    (∀ e ∈ entries codec session t D, e ∈ es') →
    ((D.encodeRdfTerm codec session t).1 = id ↔
      ∀ id', Relation.ReflTransGen d.Quotes id id' → Survives codec d id')

theorem forall_quoted_iff {P : Int → Prop} (leaf : ∀ id', ¬ d.Quotes id id') :
    (∀ id', Relation.ReflTransGen d.Quotes id id' → P id') ↔ P id := by
  constructor
  · exact fun all => all id .refl
  · intro holds id' reached
    cases reached.cases_head with
    | inl same => exact same ▸ holds
    | inr step =>
      obtain ⟨id'', quotes, -⟩ := step
      exact absurd quotes (leaf id'')

theorem not_quotes_of_row {info : TermInfo} (row : d.decodeFull id = some info)
    (plain : info.quotedTriple = none) (id' : Int) : ¬ d.Quotes id id' := by
  rintro ⟨-, info', s, p, o, row', quoted, -⟩
  rw [row] at row'
  cases row'
  rw [plain] at quoted
  cases quoted

theorem survives_iff {info : TermInfo} (positive : isInline id = false)
    (row : d.decodeFull id = some info) : Survives codec d id ↔
      match info.kind with
      | .blank => codec.normalize (dumpedLabel id) = info.value
      | .literal | .typedLiteral | .langLiteral => Dictionary.NoLookalike info.value
      | .iri | .quotedTriple => True := by
  simp only [Survives, positive, row, Option.some.injEq, forall_const, forall_eq']

/-- A term with a row of its own, which is read as a term that is looked up under one entry. -/
theorem returns_of_entry (e e₀ : Entry) (h : Filled codec es d) {t : RdfTerm} {info : TermInfo}
    (row : d.decodeFull id = some info) (written : info = e₀.info codec d)
    (plain : info.quotedTriple = none)
    (encodes : ∀ D : Dict, D.encodeRdfTerm codec session t =
      D.encodeTiers session (e.hash codec) (e.info codec D))
    (lists : ∀ D, e ∈ entries codec session t D) (simple : ∀ s p o, e ≠ .quoted s p o)
    (same : e.input = e₀.input ↔ Survives codec d id) :
    ReturnsIfSurviving codec session d es id t := by
  intro es' D more collisionFree filled extended listed
  rw [written] at row
  obtain ⟨listed₀, stored⟩ := h.stored_of_decodeFull row
  have known : e.ComponentsKnown D := fun s p o quoted => absurd quoted (simple s p o)
  rw [encodes, filled.encodeTiers_eq_iff collisionFree session (listed e (lists D)) known
    (more e₀ listed₀) (extended.stored stored), same]
  rw [← written] at row
  exact (forall_quoted_iff (not_quotes_of_row row plain)).symm

/-- A literal that was inlined is inlined again. -/
theorem tryEncodeInline_inlineParts {chrono : Chrono} (h : Prints chrono id)
    (utc : PrintsUtc chrono) :
    tryEncodeInline chrono (inlineParts chrono id).1 (inlineParts chrono id).2 = some id := by
  cases h with
  | integer v packed parts =>
    have fits := (packSigned_eq_some (by decide) packed).2.2.2
    rw [parts, tryEncodeInline, ofIri_xsd.1]
    apply tryEncodeInteger_eq_some.mpr
    rw [trim_of_plain fun c hc => mem_toString_int hc]
    exact ⟨v, parseInteger_toString v, fits, packed⟩
  | boolean b packed parts =>
    rw [parts, tryEncodeInline, ofIri_xsd.2.1]
    apply tryEncodeBoolean_eq_some.mpr
    refine ⟨b, ?_, packed⟩
    cases b <;> decide
  | dateTime m packed parts =>
    have fits := (packSigned_eq_some (by decide) packed).2.2.2
    have same : timestampMicros (m / 10 ^ 6, (m % 10 ^ 6).toNat * 1000) = m := by
      simp only [timestampMicros]
      omega
    rw [parts, tryEncodeInline, ofIri_xsd.2.2.1]
    apply tryEncodeDatetime_eq_some.mpr
    refine ⟨_, ?_, same.symm ▸ packed⟩
    rw [utcInstant]
    dsimp only
    rw [if_neg (by simp [utc m fits]), chrono.parse_formatMicros m fits]
  | date n read packed parts =>
    obtain ⟨text, read⟩ := read
    rw [parts, tryEncodeInline, ofIri_xsd.2.2.2]
    apply tryEncodeDate_eq_some.mpr
    exact ⟨n, chrono.parse_formatDays text n read, packed⟩

theorem writeTyped_eq_iff {value value' datatype : Text} :
    writeTyped value datatype = writeTyped value' datatype ↔ value = value' := by
  simp [writeTyped]

theorem returns_typed (h : Filled codec es d) {value datatype : Text}
    (positive : isInline id = false)
    (row : d.decodeFull id = some ⟨value, .typedLiteral, some datatype, none, none⟩)
    (stored : tryEncodeInline codec.chrono value datatype = none) :
    ReturnsIfSurviving codec session d es id (.typed (replaceLookalikes value) datatype) := by
  have survives : Survives codec d id ↔ replaceLookalikes value = value :=
    (survives_iff positive row).trans (replaceLookalikes_eq_self_iff value).symm
  cases inlined : tryEncodeInline codec.chrono (replaceLookalikes value) datatype with
  | none =>
    apply returns_of_entry (.typed (replaceLookalikes value) datatype) (.typed value datatype)
      h row rfl rfl
    · exact fun D => encodeRdfTerm_typed inlined
    · simp [entries, inlined]
    · simp
    · rw [survives, Entry.input, Entry.input, Sum.inl.injEq, Prod.mk.injEq, writeTyped_eq_iff,
        and_iff_left rfl]
  | some id' =>
    intro es' D _ _ _ _ _
    rw [forall_quoted_iff (not_quotes_of_row row rfl), survives, encodeRdfTerm_inline inlined]
    refine iff_of_false ?_ ?_
    · intro same
      have negative := isInline_of_tryEncodeInline inlined
      rw [show id' = id from same, positive] at negative
      cases negative
    · intro same
      rw [same, stored] at inlined
      cases inlined

theorem forall_inside_iff {P : Int → Prop} : (∀ id', Inside d (s, p, o) id' → P id') ↔
    (∀ id', Relation.ReflTransGen d.Quotes s id' → P id') ∧
      (∀ id', Relation.ReflTransGen d.Quotes p id' → P id') ∧
      ∀ id', Relation.ReflTransGen d.Quotes o id' → P id' := by
  simp only [Inside, List.exists_mem_cons_iff, List.not_mem_nil, false_and, exists_false, or_false,
    or_imp, forall_and]

theorem inside_of_quotes {id' : Int} (quoted : QuotedAs d id (s, p, o))
    (reached : Relation.ReflTransGen d.Quotes id id') : id' = id ∨ Inside d (s, p, o) id' := by
  cases reached.cases_head with
  | inl same => exact .inl same.symm
  | inr step =>
    obtain ⟨c, ⟨-, info', s', p', o', row', quoted', which⟩, reached⟩ := step
    obtain ⟨-, info, row, components⟩ := quoted
    rw [row] at row'
    cases row'
    rw [components] at quoted'
    cases quoted'
    refine .inr ⟨c, ?_, reached⟩
    simpa using which

theorem quotes_of_inside {id' : Int} (quoted : QuotedAs d id (s, p, o))
    (inside : Inside d (s, p, o) id') : Relation.ReflTransGen d.Quotes id id' := by
  obtain ⟨c, hc, reached⟩ := inside
  obtain ⟨positive, info, row, components⟩ := quoted
  refine .head ⟨positive, info, s, p, o, row, components, ?_⟩ reached
  simpa using hc

/-- A quoted triple comes back exactly if its components do. -/
theorem returns_quoted (subject : ReturnsIfSurviving codec session d es s a)
    (predicate : ReturnsIfSurviving codec session d es p b)
    (object : ReturnsIfSurviving codec session d es o c) (more : ∀ e ∈ es, e ∈ es')
    (collisionFree : NoCollision codec es') (filled : Filled codec es' D)
    (extended : Dict.Extends d D) (listed : ∀ e ∈ entries codec session (.quoted a b c) D, e ∈ es')
    (here : Entry.quoted s p o ∈ es') (stored : D.Stored ((Entry.quoted s p o).hash codec) id) :
    (D.encodeRdfTerm codec session (.quoted a b c)).1 = id ↔
      ∀ id', Inside d (s, p, o) id' → Survives codec d id' := by
  simp only [entries, List.mem_append, List.mem_singleton] at listed
  have listedS e he := listed e (.inl (.inl (.inl he)))
  have listedP e he := listed e (.inl (.inl (.inr he)))
  have listedO e he := listed e (.inl (.inr he))
  obtain ⟨filledS, extendsS, knownS⟩ := filled.encodeRdfTerm session _ listedS
  obtain ⟨filledP, extendsP, knownP⟩ := filledS.encodeRdfTerm session _ listedP
  obtain ⟨filledO, extendsO, knownO⟩ := filledP.encodeRdfTerm session _ listedO
  have known := Entry.componentsKnown_quoted ((knownS.mono extendsP.rows).mono extendsO.rows)
    (knownP.mono extendsO.rows) knownO
  have later := extendsS.trans (extendsP.trans extendsO)
  rw [encodeRdfTerm_quoted]
  dsimp only
  rw [filledO.encodeTiers_eq_iff collisionFree session (listed _ (.inr rfl)) known here
    (later.stored stored)]
  simp only [Entry.input, Sum.inr.injEq, Prod.mk.injEq]
  rw [subject es' D more collisionFree filled extended listedS,
    predicate es' _ more collisionFree filledS (extended.trans extendsS) listedP,
    object es' _ more collisionFree filledP (extended.trans (extendsS.trans extendsP)) listedO]
  exact forall_inside_iff.symm

/-- A text that is split right is read term by term. -/
theorem readRdfTerm_tripleText (splits : SplitsRight codec d (s, p, o))
    (readS : readRdfTerm (d.formatNtriples codec s) = some a)
    (readP : readRdfTerm (d.formatNtriples codec p) = some b)
    (readO : readRdfTerm (d.formatNtriples codec o) = some c) :
    readRdfTerm (tripleText codec d (s, p, o)) = some (.quoted a b c) := by
  rw [SplitsRight, ← trim_tripleText] at splits
  rw [readRdfTerm_of_tokens splits, List.intercalate_singleton]
  dsimp only
  rw [readS, readP, readO]
  rfl

/-- The text of an id, if all that is split in it is split right. -/
theorem StandsFor.reread (session : Session) (h : Filled codec es d) (utc : PrintsUtc codec.chrono)
    (stands : StandsFor codec d id n) (wellFormed : n.WellFormed)
    (splits : ∀ id' q, Relation.ReflTransGen d.Quotes id id' → QuotedAs d id' q →
      SplitsRight codec d q) :
    ∃ t, readRdfTerm (d.formatNtriples codec id) = some t ∧
      ReturnsIfSurviving codec session d es id t := by
  induction stands with
  | @inline id negative prints =>
    refine ⟨.typed (inlineParts codec.chrono id).1 (inlineParts codec.chrono id).2, ?_, ?_⟩
    · have read := readRdfTerm_literal (inlineParts codec.chrono id).1
        (.datatype (inlineParts codec.chrono id).2) id
      have backslashFree : replaceLookalikes (inlineParts codec.chrono id).1 =
          (inlineParts codec.chrono id).1 := by
        apply (replaceLookalikes_eq_self_iff _).mpr
        intro k _ lookalike
        have plain := prints.plain '\\' (lookalike.subset List.mem_cons_self)
        cases plain
      rw [backslashFree, format_literal, escapeLiteral_plain prints.plain] at read
      rw [Dict.formatNtriples, if_pos negative, formatInline_eq]
      simpa [writeTyped, LiteralTag.suffix, literalTerm] using read
    · intro es' D _ _ _ _ _
      rw [encodeRdfTerm_inline (tryEncodeInline_inlineParts prints utc)]
      have leaf (id' : Int) : ¬ d.Quotes id id' := by
        rintro ⟨positive, -⟩
        rw [negative] at positive
        cases positive
      rw [forall_quoted_iff leaf]
      refine iff_of_true rfl ?_
      intro positive
      rw [negative] at positive
      cases positive
  | @iri id text positive row normal =>
    refine ⟨.plain text .iri, ?_, ?_⟩
    · rw [formatNtriples_of_row positive row]
      exact readRdfTerm_iri wellFormed
    · apply returns_of_entry (plainEntry codec text .iri) (.plain text .iri) h row rfl rfl
      · exact fun D => encodeRdfTerm_plain
      · simp [entries]
      · simp
      · rw [survives_iff positive row]
        refine iff_of_true ?_ trivial
        simp [Entry.input, normal]
  | @blank id label positive row =>
    refine ⟨.plain (dumpedLabel id) .blank, ?_, ?_⟩
    · rw [formatNtriples_of_row positive row]
      exact readRdfTerm_blank id
    · apply returns_of_entry (plainEntry codec (dumpedLabel id) .blank) (.plain label .blank) h row
        rfl rfl
      · exact fun D => encodeRdfTerm_plain
      · simp [entries]
      · simp
      · rw [survives_iff positive row]
        simp [Entry.input]
  | @literal id value positive row =>
    refine ⟨.plain (replaceLookalikes value) .literal, ?_, ?_⟩
    · rw [formatNtriples_of_row positive row]
      exact readRdfTerm_literal value .plain id
    · apply returns_of_entry (plainEntry codec (replaceLookalikes value) .literal)
        (.plain value .literal) h row rfl rfl
      · exact fun D => encodeRdfTerm_plain
      · simp [entries]
      · simp
      · rw [survives_iff positive row]
        simpa [Entry.input] using replaceLookalikes_eq_self_iff value
  | @typed id value datatype positive row stored =>
    refine ⟨.typed (replaceLookalikes value) datatype, ?_, returns_typed h positive row stored⟩
    rw [formatNtriples_of_row positive row]
    exact readRdfTerm_literal value (.datatype datatype) id
  | @lang id value tag positive row =>
    refine ⟨.lang (replaceLookalikes value) tag, ?_, ?_⟩
    · rw [formatNtriples_of_row positive row]
      exact readRdfTerm_literal value (.lang ⟨tag, wellFormed⟩) id
    · apply returns_of_entry (.lang (replaceLookalikes value) tag) (.lang value tag) h row rfl rfl
      · exact fun D => encodeRdfTerm_lang
      · simp [entries]
      · simp
      · rw [survives_iff positive row]
        simpa [Entry.input] using replaceLookalikes_eq_self_iff value
  | @quoted id s p o ns np no positive row subject predicate object ihS ihP ihO =>
    have quoted : QuotedAs d id (s, p, o) := ⟨positive, _, row, rfl⟩
    have inner (x : Int) (hx : x ∈ [s, p, o]) (id' : Int) (q : Int × Int × Int)
        (reached : Relation.ReflTransGen d.Quotes x id') (as : QuotedAs d id' q) :
        SplitsRight codec d q := splits id' q (quotes_of_inside quoted ⟨x, hx, reached⟩) as
    obtain ⟨a, readS, returnsS⟩ := ihS wellFormed.1 (inner s (by simp))
    obtain ⟨b, readP, returnsP⟩ := ihP wellFormed.2.1 (inner p (by simp))
    obtain ⟨c, readO, returnsO⟩ := ihO wellFormed.2.2 (inner o (by simp))
    refine ⟨.quoted a b c, ?_, ?_⟩
    · rw [formatNtriples_of_row positive row]
      exact readRdfTerm_tripleText (splits id _ .refl quoted) readS readP readO
    · intro es' D more collisionFree filled extended listed
      have row' : d.decodeFull id = some ((Entry.quoted s p o).info codec d) := row
      obtain ⟨here, stored⟩ := h.stored_of_decodeFull row'
      rw [returns_quoted returnsS returnsP returnsO more collisionFree filled extended listed
        (more _ here) (extended.stored stored)]
      constructor
      · intro all id' reached
        cases inside_of_quotes quoted reached with
        | inl same =>
          rw [same, survives_iff positive row]
          trivial
        | inr inside => exact all id' inside
      · exact fun all id' inside => all id' (quotes_of_inside quoted inside)

theorem StandsFor.known (stands : StandsFor codec d id n) : Known d id := by
  cases stands with
  | inline negative prints => exact .inl negative
  | _ positive row => exact .inr (Dict.decodeFull_eq_some row)

/-- What an id quotes stands for a term too. -/
theorem StandsFor.inner (stands : StandsFor codec d id n) (wellFormed : n.WellFormed) {id' : Int}
    (reached : Relation.ReflTransGen d.Quotes id id') :
    ∃ n', StandsFor codec d id' n' ∧ n'.WellFormed := by
  induction reached using Relation.ReflTransGen.head_induction_on generalizing n with
  | refl => exact ⟨n, stands, wellFormed⟩
  | head quotes _ ih =>
    obtain ⟨positive, info, s, p, o, row, quoted, which⟩ := quotes
    cases stands with
    | inline negative prints =>
      rw [negative] at positive
      cases positive
    | quoted _ row' subject predicate object =>
      rw [row] at row'
      cases row'
      cases quoted
      obtain rfl | rfl | rfl := which
      · exact ih subject wellFormed.1
      · exact ih predicate wellFormed.2.1
      · exact ih object wellFormed.2.2
    | _ _ row' =>
      rw [row] at row'
      cases row'
      cases quoted

/-- The texts of a quoted triple that an id stands for. -/
theorem StandsFor.splitsRight_iff {q : Int × Int × Int} (stands : StandsFor codec d id n)
    (wellFormed : n.WellFormed) (quoted : QuotedAs d id q) :
    SplitsRight codec d q ↔ Separable codec d q := by
  obtain ⟨positive, info, row, components⟩ := quoted
  cases stands with
  | inline negative prints =>
    rw [negative] at positive
    cases positive
  | quoted _ row' subject predicate object =>
    rw [row] at row'
    cases row'
    cases components
    exact Transfer.splitsRight_iff subject predicate object wellFormed.1 wellFormed.2.1
      wellFormed.2.2
  | _ _ row' =>
    rw [row] at row'
    cases row'
    cases components

/-- Once all is split right, the text is encoded as the triple exactly if all that is inside
survives. -/
theorem returns_iff (filled : Filled codec es d) (utc : PrintsUtc codec.chrono)
    (subject : StandsFor codec d s ns) (predicate : StandsFor codec d p np)
    (object : StandsFor codec d o no) (wellFormed : (Node.quoted ns np no).WellFormed)
    (collisionFree : NoCollision codec (es ++ rereadEntries codec session d (s, p, o)))
    (splits : ∀ q, Nested d (s, p, o) q → SplitsRight codec d q) :
    (encodeTermText codec session (tripleText codec d (s, p, o))
        (d.encodeQuotedTriple codec session s p o).2).map Prod.fst =
      some (d.encodeQuotedTriple codec session s p o).1 ↔
        ∀ id, Inside d (s, p, o) id → Survives codec d id := by
  have inner (x : Int) (hx : x ∈ [s, p, o]) (id' : Int) (q : Int × Int × Int)
      (reached : Relation.ReflTransGen d.Quotes x id') (as : QuotedAs d id' q) :
      SplitsRight codec d q := splits q (.inr ⟨id', ⟨x, hx, reached⟩, as⟩)
  obtain ⟨a, readS, returnsS⟩ := subject.reread session filled utc wellFormed.1 (inner s (by simp))
  obtain ⟨b, readP, returnsP⟩ :=
    predicate.reread session filled utc wellFormed.2.1 (inner p (by simp))
  obtain ⟨c, readO, returnsO⟩ := object.reread session filled utc wellFormed.2.2 (inner o (by simp))
  have read := readRdfTerm_tripleText (splits _ (.inl rfl)) readS readP readO
  have listed (e : Entry) (he : e ∈ rereadEntries codec session d (s, p, o)) :
      e ∈ es ++ rereadEntries codec session d (s, p, o) := List.mem_append_right _ he
  have here := listed (.quoted s p o) List.mem_cons_self
  have more (e : Entry) (he : e ∈ es) : e ∈ es ++ rereadEntries codec session d (s, p, o) :=
    List.mem_append_left _ he
  have known := Entry.componentsKnown_quoted subject.known predicate.known object.known
  have written : d.encodeQuotedTriple codec session s p o = d.encodeTiers session
      ((Entry.quoted s p o).hash codec) ((Entry.quoted s p o).info codec d) := rfl
  obtain ⟨filled', extended, stored⟩ := (filled.mono more).encodeTiers session here known
  rw [← written] at filled' extended stored
  rw [encodeTermText, read, Option.map_some, Option.map_some, Option.some.injEq]
  refine returns_quoted returnsS returnsP returnsO more collisionFree filled' extended
    ?_ here stored
  intro e he
  apply listed
  rw [rereadEntries, read]
  exact List.mem_cons_of_mem _ he

/-- The text of a quoted triple is encoded as the triple, and split into the right texts at every
level, exactly if the texts of the components are separable at every level, no literal inside has
a lookalike of an escape, and each blank node inside is stored under its printed label. -/
theorem tripleRoundTrips_iff (filled : Filled codec es d) (utc : PrintsUtc codec.chrono)
    (subject : StandsFor codec d s ns) (predicate : StandsFor codec d p np)
    (object : StandsFor codec d o no) (wellFormed : (Node.quoted ns np no).WellFormed)
    (collisionFree : NoCollision codec (es ++ rereadEntries codec session d (s, p, o))) :
    TripleRoundTrips codec session d (s, p, o) ↔
      (∀ q, Nested d (s, p, o) q → Separable codec d q) ∧
        ∀ id, Inside d (s, p, o) id → Survives codec d id := by
  have separable_iff (q : Int × Int × Int) (nested : Nested d (s, p, o) q) :
      SplitsRight codec d q ↔ Separable codec d q := by
    obtain rfl | ⟨id, ⟨x, hx, reached⟩, quoted⟩ := nested
    · exact splitsRight_iff subject predicate object wellFormed.1 wellFormed.2.1 wellFormed.2.2
    · obtain ⟨m, stands, wellFormedX⟩ : ∃ m, StandsFor codec d x m ∧ m.WellFormed := by
        simp only [List.mem_cons, List.not_mem_nil, or_false] at hx
        obtain rfl | rfl | rfl := hx
        · exact ⟨ns, subject, wellFormed.1⟩
        · exact ⟨np, predicate, wellFormed.2.1⟩
        · exact ⟨no, object, wellFormed.2.2⟩
      obtain ⟨m', stands', wellFormed'⟩ := stands.inner wellFormedX reached
      exact stands'.splitsRight_iff wellFormed' quoted
  have survives (splits : ∀ q, Nested d (s, p, o) q → SplitsRight codec d q) :=
    returns_iff filled utc subject predicate object wellFormed collisionFree splits
  constructor
  · rintro ⟨splits, returns⟩
    exact ⟨fun q nested => (separable_iff q nested).mp (splits q nested),
      (survives splits).mp returns⟩
  · rintro ⟨separable, surviving⟩
    have splits (q : Int × Int × Int) (nested : Nested d (s, p, o) q) : SplitsRight codec d q :=
      (separable_iff q nested).mpr (separable q nested)
    exact ⟨splits, (survives splits).mpr surviving⟩

end Returns

/-- The dictionary of `<< <a> <p> "v" >>`, which has the id 4. -/
def starDict : Dict :=
  { Dict.initial false 0 with
    rows := ⟨[⟨97, 1, "a".toList, .iri, none, none, none⟩,
      ⟨112, 2, "p".toList, .iri, none, none, none⟩,
      ⟨118, 3, "v".toList, .literal, none, none, none⟩,
      ⟨197121, 4, "<< <a> <p> \"v\" >>".toList, .quotedTriple, none, none, some (1, 2, 3)⟩], by
        simp only [List.map_cons, List.map_nil]
        decide⟩
    nextId := 5 }

def starEntries : List Entry :=
  [.plain "a".toList .iri, .plain "p".toList .iri, .plain "v".toList .literal, .quoted 1 2 3]

theorem hasRow_star : ∀ id ∈ [1, 2, 3, 4], starDict.HasRow id := by
  unfold Dict.HasRow
  decide

theorem filled_star : Filled pathCodec starEntries starDict where
  sound := by
    rintro hash128 id (held | ⟨session, found⟩)
    · exact absurd held SharedCache.not_holds_initial
    · cases found
  next := by decide
  bounds := by decide
  unique := by
    unfold UniqueIds
    decide
  entry := by decide
  components := by
    have only : ∀ r ∈ starDict.rows.rows, r.info.quotedTriple = none ∨
        r.info.quotedTriple = some (1, 2, 3) := by decide
    intro r hr s p o quoted
    obtain plain | star := only r hr
    · rw [plain] at quoted
      cases quoted
    · rw [star] at quoted
      cases quoted
      exact ⟨.inr (hasRow_star 1 (by decide)), .inr (hasRow_star 2 (by decide)),
        .inr (hasRow_star 3 (by decide))⟩

/-- The terms of the ids. -/
def starNode : Node := .quoted (.iri "a".toList) (.iri "p".toList)
    (.literal "v".toList (xsd "string"))

theorem standsFor_a : StandsFor pathCodec starDict 1 (.iri "a".toList) := .iri rfl rfl rfl

theorem standsFor_p : StandsFor pathCodec starDict 2 (.iri "p".toList) := .iri rfl rfl rfl

theorem standsFor_star : StandsFor pathCodec starDict 4 starNode := by
  have v : StandsFor pathCodec starDict 3 (.literal "v".toList (xsd "string")) := .literal rfl rfl
  have row : starDict.decodeFull 4 =
      some ⟨canonicalText pathCodec starDict 1 2 3, .quotedTriple, none, none, some (1, 2, 3)⟩ := by
    decide
  exact .quoted rfl row standsFor_a standsFor_p v

theorem wellFormed_star : starNode.WellFormed :=
  ⟨iriText_of_all (by decide), iriText_of_all (by decide), iriText_of_all (by decide)⟩

theorem printsUtc_numeric : PrintsUtc pathCodec.chrono := by
  intro m _
  have plain : trim (toString m).toList = (toString m).toList :=
    trim_of_plain fun c hc => mem_toString_int hc
  have noT : (toString m).toList.findIdx? (· == 'T') = none := by
    apply List.findIdx?_eq_none_iff.mpr
    intro c hc
    rw [toString_int] at hc
    have digit {n : Nat} (hc : c ∈ Nat.toDigits 10 n) : (c == 'T') = false := by
      have := Nat.isDigit_of_mem_toDigits (by decide) (by decide) hc
      rw [beq_eq_false_iff_ne]
      rintro rfl
      cases this
    split at hc
    · cases hc with
      | head => rfl
      | tail _ hc => exact digit hc
    · exact digit hc
  show hasNonzeroOffset (trim (toString m).toList) = false
  rw [plain, hasNonzeroOffset]
  dsimp only
  rw [noT]
  split <;> simp_all

theorem quotedAs_star {id : Int} {q : Int × Int × Int} (quoted : QuotedAs starDict id q) :
    q = (1, 2, 3) := by
  have only : ∀ r ∈ starDict.rows.rows, ∀ q, r.info.quotedTriple = some q → q = (1, 2, 3) := by
    simp [starDict]
  obtain ⟨-, info, row, components⟩ := quoted
  obtain ⟨r, found, rfl⟩ := Option.map_eq_some_iff.mp row
  exact only r (List.mem_of_find?_eq_some found) q components

theorem reached_star {id id' : Int} (h : id ∈ [1, 2, 3, 4])
    (reached : Relation.ReflTransGen starDict.Quotes id id') : id' ∈ [1, 2, 3, 4] := by
  induction reached with
  | refl => exact h
  | tail _ quotes _ =>
    obtain ⟨positive, info, s, p, o, row, quoted, which⟩ := quotes
    cases quotedAs_star ⟨positive, info, row, quoted⟩
    obtain rfl | rfl | rfl := which <;> decide

theorem survives_star : ∀ id ∈ [1, 2, 3, 4], Survives pathCodec starDict id := by
  have v : Dictionary.NoLookalike "v".toList := noLookalike_of_length (by decide)
  have one : Survives pathCodec starDict 1 := (survives_iff rfl rfl).mpr trivial
  have two : Survives pathCodec starDict 2 := (survives_iff rfl rfl).mpr trivial
  have three : Survives pathCodec starDict 3 := (survives_iff rfl rfl).mpr v
  have four : Survives pathCodec starDict 4 := (survives_iff rfl rfl).mpr trivial
  simp only [List.forall_mem_cons]
  exact ⟨one, two, three, four, by simp⟩

/-- A triple with a quoted triple as its object. -/
theorem tripleRoundTrips_star : TripleRoundTrips pathCodec 0 starDict (1, 2, 4) := by
  refine (tripleRoundTrips_iff filled_star printsUtc_numeric standsFor_a standsFor_p standsFor_star
    ⟨wellFormed_star.1, wellFormed_star.2.1, wellFormed_star⟩ (by decide)).mpr ⟨?_, ?_⟩
  · rintro q (rfl | ⟨id, -, quoted⟩)
    · unfold Separable
      decide
    · rw [quotedAs_star quoted]
      unfold Separable
      decide
  · rintro id ⟨x, hx, reached⟩
    apply survives_star id (reached_star _ reached)
    have members : ∀ x ∈ [(1 : Int), 2, 4], x ∈ [(1 : Int), 2, 3, 4] := by decide
    exact members x hx

/-- With the quoted triple as its subject, the text is split into two tokens only: inside the
quotes the IRI flag stays set, so the blank after them is no separator. -/
theorem not_tripleRoundTrips :
    ¬ ∀ (codec : Codec) (session : Session) (es : List Entry) (d : Dict) (s p o : Int)
      (ns np no : Node), Filled codec es d → PrintsUtc codec.chrono → StandsFor codec d s ns →
      StandsFor codec d p np → StandsFor codec d o no → (Node.quoted ns np no).WellFormed →
      NoCollision codec (es ++ rereadEntries codec session d (s, p, o)) →
      TripleRoundTrips codec session d (s, p, o) := by
  intro all
  have trip := all pathCodec 0 starEntries starDict 4 2 1 _ _ _ filled_star printsUtc_numeric
    standsFor_star standsFor_p standsFor_a ⟨wellFormed_star, wellFormed_star.2.1, wellFormed_star.1⟩
    (by decide)
  have split : ¬ SplitsRight pathCodec starDict (4, 2, 1) := by
    unfold SplitsRight
    decide
  exact split (trip.splits _ (.inl rfl))

end PgRipple.Transfer
