import PgRipple.Sparql.GroundData
import PgRipple.Transfer.Encoding

/-!
# Inline data

The terms of a `VALUES` block become ids. Literals are encoded, while IRIs and quoted triples
are only looked up, and all those that the dictionary does not know get the id `0`. What is
printed for a cell of the result is read off the row of its id.

An id leads back to the term of its cell if the dictionary knows the term, and if literals are
written the way the dictionary writes them.
-/

namespace PgRipple.Sparql

open Storage Dictionary PgRipple.Transfer

/-- `encode_ctx`: the lookups of this block, and the dictionary. -/
structure ValuesCtx where
  perQuery : List (Text × Option Int)
  dict : Dict

section Model

variable (codec : Codec) (session : Session)

/-- `Ctx::encode_iri`. -/
def ValuesCtx.encodeIri (iri : Text) (ctx : ValuesCtx) : Option Int × ValuesCtx :=
  match ctx.perQuery.lookup iri with
  | some cached => (cached, ctx)
  | none =>
    let (id, d) := ctx.dict.lookup codec session iri .iri
    (id, ⟨(iri, id) :: ctx.perQuery, d⟩)

/-- `Ctx::encode_literal`. -/
def ValuesCtx.encodeLiteral (value datatype : Text) (language : Option Text) (ctx : ValuesCtx) :
    Int × ValuesCtx :=
  let (id, d) :=
    match language with
    | some lang => ctx.dict.encodeLangLiteral codec session value lang
    | none =>
      if isPlainDatatype datatype then ctx.dict.encode codec session value .literal
      else ctx.dict.encodeTypedLiteral codec session value datatype
  (id, { ctx with dict := d })

/-- `encode_ground_term`. -/
def InlineData.encodeGroundTerm : GroundTermValue → ValuesCtx → Int × ValuesCtx
  | .namedNode iri, ctx =>
    let (id, ctx) := ctx.encodeIri codec session iri
    (id.getD 0, ctx)
  | .literal value datatype language, ctx => ctx.encodeLiteral codec session value datatype language
  | .triple s p o, ctx =>
    let (sId, ctx) := ctx.encodeIri codec session s
    let (pId, ctx) := ctx.encodeIri codec session p
    let (oId, ctx) := InlineData.encodeGroundTerm o ctx
    let (id, d) := ctx.dict.lookupQuotedTriple codec session (sId.getD 0) (pId.getD 0) oId
    (id.getD 0, { ctx with dict := d })

/-- The cells of a row; `none` is `UNDEF`. -/
def encodeCells : List (Option GroundTermValue) → ValuesCtx → List (Option Int) × ValuesCtx
  | [], ctx => ([], ctx)
  | none :: cells, ctx =>
    let (ids, ctx) := encodeCells cells ctx
    (none :: ids, ctx)
  | some t :: cells, ctx =>
    let (id, ctx) := InlineData.encodeGroundTerm codec session t ctx
    let (ids, ctx) := encodeCells cells ctx
    (some id :: ids, ctx)

def encodeRows (vars : List String) :
    List (List (Option GroundTermValue)) → ValuesCtx → List (List (Option Int)) × ValuesCtx
  | [], ctx => ([], ctx)
  | row :: rows, ctx =>
    let (cells, ctx) := encodeCells codec session (row.take vars.length) ctx
    let (others, ctx) := encodeRows vars rows ctx
    (cells :: others, ctx)

/-- `translate_values`: the rows of the fragment, and the dictionary afterwards. -/
def InlineData.translateValues (vars : List String)
    (bindings : List (List (Option GroundTermValue))) (d : Dict) :
    List (List (Option Int)) × Dict :=
  if vars.isEmpty ∨ bindings.isEmpty then ([], d)
  else
    let (rows, ctx) := encodeRows codec session vars bindings ⟨[], d⟩
    (rows, ctx.dict)

/-- `batch_decode` of the id of a cell; `none` is shown as `null`. -/
def shownCell (d : Dict) (id : Int) : Option Text :=
  if isInline id then some (formatInline codec.chrono id)
  else (d.decodeFull id).map fun t => formatNtriplesTerm t.value t.kind t.datatype t.lang id

end Model

def rdfLangString : Text := "http://www.w3.org/1999/02/22-rdf-syntax-ns#langString".toList

namespace GroundTermValue

/-- What the parser guarantees: the syntax of IRIs and language tags, and the datatype of a
literal with a language. -/
def WellFormed : GroundTermValue → Prop
  | .namedNode iri => IriText iri
  | .literal _ datatype none => IriText datatype
  | .literal _ datatype (some lang) =>
    datatype = rdfLangString ∧ ∀ c ∈ lang, c.isAlphanum ∨ c = '-'
  | .triple s p o => IriText s ∧ IriText p ∧ o.WellFormed

/-- The term in N-Triples. -/
def ntriples : GroundTermValue → Text
  | .namedNode iri => '<' :: iri ++ ['>']
  | .literal value _ (some lang) => '"' :: escapeLiteral value ++ "\"@".toList ++ lang
  | .literal value datatype none =>
    if datatype = xsd "string" then '"' :: escapeLiteral value ++ ['"']
    else '"' :: escapeLiteral value ++ "\"^^<".toList ++ datatype ++ ['>']
  | .triple s p o =>
    "<< ".toList ++ ('<' :: s ++ ['>']) ++ " ".toList ++ ('<' :: p ++ ['>']) ++ " ".toList ++
      o.ntriples ++ " >>".toList

end GroundTermValue

/-- The value of a literal ends at the first quote that is not escaped. -/
theorem quoted_inj {value value' rest rest' : Text}
    (same : '"' :: escapeLiteral value ++ '"' :: rest =
      '"' :: escapeLiteral value' ++ '"' :: rest') : value = value' ∧ rest = rest' := by
  have tails : escapeLiteral value ++ '"' :: rest = escapeLiteral value' ++ '"' :: rest' := by
    simpa using same
  have cut := congrArg closingQuote tails
  rw [closingQuote_escapeLiteral, closingQuote_escapeLiteral] at cut
  obtain ⟨values, rests⟩ := Prod.mk.inj (Option.some.inj cut)
  exact ⟨escapeLiteral_injective values, rests⟩

namespace GroundTermValue

/-- What follows the closing quote of a literal. -/
def literalSuffix (datatype : Text) (language : Option Text) : Text :=
  match language with
  | some lang => '@' :: lang
  | none => if datatype = xsd "string" then [] else "^^<".toList ++ datatype ++ ['>']

theorem ntriples_literal (value datatype : Text) (language : Option Text) :
    (GroundTermValue.literal value datatype language).ntriples =
      '"' :: escapeLiteral value ++ '"' :: literalSuffix datatype language := by
  cases language with
  | some lang => simp [ntriples, literalSuffix]
  | none =>
    rw [ntriples, literalSuffix]
    split <;> simp

theorem literalSuffix_inj {value value' datatype datatype' : Text}
    {language language' : Option Text}
    (h : (GroundTermValue.literal value datatype language).WellFormed)
    (h' : (GroundTermValue.literal value' datatype' language').WellFormed)
    (same : literalSuffix datatype language = literalSuffix datatype' language') :
    datatype = datatype' ∧ language = language' := by
  cases language with
  | some lang =>
    cases language' with
    | some lang' => exact ⟨h.1.trans h'.1.symm, congrArg some (List.cons.inj same).2⟩
    | none =>
      rw [literalSuffix, literalSuffix] at same
      split at same <;> cases same
  | none =>
    cases language' with
    | some lang' =>
      rw [literalSuffix, literalSuffix] at same
      split at same <;> cases same
    | none =>
      refine ⟨?_, rfl⟩
      simp only [literalSuffix] at same
      split at same
      · rename_i string
        split at same
        · rename_i string'
          rw [string, string']
        · cases same
      · split at same
        · cases same
        · simpa using same

/-- The text of an IRI ends at the first angle bracket. -/
theorem bracketed_inj {iri iri' rest rest' : Text} (h : IriText iri) (h' : IriText iri')
    (same : iri ++ '>' :: rest = iri' ++ '>' :: rest') : iri = iri' ∧ rest = rest' := by
  have cut {t : Text} (ht : IriText t) (rest : Text) :
      (t ++ '>' :: rest).span (· ≠ '>') = (t, '>' :: rest) := by
    rw [List.span_eq_takeWhile_dropWhile,
      List.takeWhile_append_of_pos (fun c hc => by simpa using (ht c hc).2.1),
      List.dropWhile_append_of_pos (fun c hc => by simpa using (ht c hc).2.1)]
    simp
  have cuts := congrArg (List.span (· ≠ '>')) same
  rw [cut h, cut h'] at cuts
  obtain ⟨iris, rests⟩ := Prod.mk.inj cuts
  exact ⟨iris, (List.cons.inj rests).2⟩

theorem ntriples_triple (s p : Text) (o : GroundTermValue) :
    (GroundTermValue.triple s p o).ntriples =
      '<' :: '<' :: ' ' :: '<' :: (s ++ '>' :: ' ' :: '<' :: (p ++ '>' :: ' ' ::
        (o.ntriples ++ " >>".toList))) := by
  simp [ntriples]

/-- An IRI does not begin like a quoted triple. -/
theorem ntriples_namedNode_ne {iri s p : Text} {o : GroundTermValue} (h : IriText iri) :
    (GroundTermValue.namedNode iri).ntriples ≠ (GroundTermValue.triple s p o).ntriples := by
  rw [ntriples_triple, ntriples]
  intro same
  cases iri with
  | nil => cases (List.cons.inj (List.cons.inj same).2).1
  | cons c cs => exact (h c List.mem_cons_self).1 (List.cons.inj (List.cons.inj same).2).1

/-- Different terms are written differently. -/
theorem ntriples_inj {t t' : GroundTermValue} (h : t.WellFormed) (h' : t'.WellFormed)
    (same : t.ntriples = t'.ntriples) : t = t' := by
  induction t generalizing t' with
  | namedNode iri =>
    cases t' with
    | namedNode iri' =>
      have text : iri ++ '>' :: [] = iri' ++ '>' :: [] := by simpa [ntriples] using same
      rw [(bracketed_inj h h' text).1]
    | literal value datatype language =>
      rw [ntriples_literal, ntriples] at same
      cases (List.cons.inj same).1
    | triple s p o => exact absurd same (ntriples_namedNode_ne h)
  | literal value datatype language =>
    cases t' with
    | namedNode iri' =>
      rw [ntriples_literal, ntriples] at same
      cases (List.cons.inj same).1
    | literal value' datatype' language' =>
      rw [ntriples_literal, ntriples_literal] at same
      obtain ⟨rfl, suffixes⟩ := quoted_inj same
      obtain ⟨rfl, rfl⟩ := literalSuffix_inj h h' suffixes
      rfl
    | triple s p o =>
      rw [ntriples_literal, ntriples_triple] at same
      cases (List.cons.inj same).1
  | triple s p o ih =>
    cases t' with
    | namedNode iri' => exact absurd same.symm (ntriples_namedNode_ne h')
    | literal value datatype language =>
      rw [ntriples_literal, ntriples_triple] at same
      cases (List.cons.inj same).1
    | triple s' p' o' =>
      rw [ntriples_triple, ntriples_triple] at same
      simp only [List.cons.injEq, true_and] at same
      obtain ⟨rfl, rest⟩ := bracketed_inj h.1 h'.1 same
      simp only [List.cons.injEq, true_and] at rest
      obtain ⟨rfl, objects⟩ := bracketed_inj h.2.1 h'.2.1 rest
      simp only [List.cons.injEq, true_and] at objects
      rw [ih h.2.2 h'.2.2 (List.append_cancel_right objects)]

end GroundTermValue

/-- The literal as `encode_rdf_term` has it. -/
def literalTerm (value datatype : Text) : Option Text → RdfTerm
  | some lang => .lang value lang
  | none => if isPlainDatatype datatype then .plain value .literal else .typed value datatype

section Entries

variable (codec : Codec) (session : Session)

/-- The entries that are encoded or looked up for a term. -/
def consulted : GroundTermValue → ValuesCtx → List Entry
  | .namedNode iri, _ => [.plain iri .iri]
  | .literal value datatype language, ctx =>
    entries codec session (literalTerm value datatype language) ctx.dict
  | .triple s p o, ctx =>
    let (sId, ctx) := ctx.encodeIri codec session s
    let (pId, ctx) := ctx.encodeIri codec session p
    [.plain s .iri, .plain p .iri] ++ consulted o ctx ++
      [.quoted (sId.getD 0) (pId.getD 0) (InlineData.encodeGroundTerm codec session o ctx).1]

/-- Those for the cells of a block. -/
def allConsulted : List (Option GroundTermValue) → ValuesCtx → List Entry
  | [], _ => []
  | none :: cells, ctx => allConsulted cells ctx
  | some t :: cells, ctx =>
    consulted codec session t ctx ++
      allConsulted cells (InlineData.encodeGroundTerm codec session t ctx).2

end Entries

/-- Literals, which are the only terms that a block adds to the dictionary. -/
def IsLiteral : Entry → Prop
  | .plain _ kind => kind = .literal
  | .typed _ _ | .lang _ _ => True
  | .quoted _ _ _ => False

/-- The hash of an IRI as it is written, and the inline ids of the encoder. -/
def valuesReading (codec : Codec) : Reading where
  iriHash iri := codec.termHash iri .iri
  inline := tryEncodeInline codec.chrono

namespace GroundTermValue

/-- The dictionary has the term; a literal is added if it has not. -/
def Available (codec : Codec) (d : Dict) : GroundTermValue → Prop
  | .literal _ _ _ => True
  | t => ∃ id, Names codec (valuesReading codec) d t id

/-- Literals are written the way they are printed: an inlined one in the form of its value, and
only a literal with a language has the datatype `rdf:langString`. -/
def Faithful (chrono : Chrono) : GroundTermValue → Prop
  | .literal value datatype none => datatype ≠ rdfLangString ∧
    ∀ id, tryEncodeInline chrono value datatype = some id →
      inlineParts chrono id = (value, datatype)
  | .triple _ _ o => o.Faithful chrono
  | _ => True

end GroundTermValue

section Dictionary

variable {codec : Codec} {session : Session} {es : List Entry} {d₀ d d' : Dict} {ctx : ValuesCtx}
  {hash128 : Hash} {id : Int}

/-- A row that an encoder adds has the hash that was asked for. -/
theorem mem_rows_of_encodeTiers {info : TermInfo} {r : TermRow}
    (hr : r ∈ (d.encodeTiers session hash128 info).2.rows.rows) :
    r ∈ d.rows.rows ∨ r.hash = hash128 := by
  revert hr
  rw [Dict.encodeTiers]
  dsimp only
  split
  · exact fun hr => .inl hr
  · rw [Dict.upsert]
    dsimp only
    split
    · exact fun hr => .inl hr
    · intro hr
      refine (UniqueTable.mem_insertNew.mp hr).imp_right ?_
      rintro ⟨-, rfl⟩
      rfl

/-- The state of a block that was started with the dictionary `d₀`: only literals have been
added, and the lookups of IRIs say what `d₀` says. -/
structure Reads (codec : Codec) (es : List Entry) (d₀ : Dict) (ctx : ValuesCtx) : Prop where
  filled : Filled codec es ctx.dict
  more : Dict.Extends d₀ ctx.dict
  literals : ∀ r ∈ ctx.dict.rows.rows,
    r ∈ d₀.rows.rows ∨ ∃ e ∈ es, IsLiteral e ∧ r.hash = e.hash codec
  cached : ∀ c ∈ ctx.perQuery, ∀ id, c.2 = some id ↔ d₀.Stored (codec.termHash c.1 .iri) id

/-- Hypotheses about the hashes of a set of entries. -/
structure Distinguished (codec : Codec) (es : List Entry) : Prop where
  collisionFree : NoCollision codec es
  regular : ∀ e ∈ es, e.Regular

theorem Distinguished.eq_of_hash (h : Distinguished codec es) {e e' : Entry} (he : e ∈ es)
    (he' : e' ∈ es) (same : e.hash codec = e'.hash codec) : e = e' :=
  (h.regular e he).input_inj (h.regular e' he') (h.collisionFree e he e' he' same)

/-- IRIs and quoted triples are found just if they were there at the start. -/
theorem Reads.stored_iff (h : Reads codec es d₀ ctx) (apart : Distinguished codec es) {e : Entry}
    (he : e ∈ es) (notLiteral : ¬ IsLiteral e) :
    ctx.dict.Stored (e.hash codec) id ↔ d₀.Stored (e.hash codec) id := by
  constructor
  · rintro ⟨r, hr, hashed, named⟩
    obtain old | ⟨e', he', literal, hashed'⟩ := h.literals r hr
    · exact ⟨r, old, hashed, named⟩
    · have same := apart.eq_of_hash he he' (hashed.symm.trans hashed')
      rw [same] at notLiteral
      exact absurd literal notLiteral
  · exact fun row => h.more.stored row

theorem decodeFull_of_stored (filled : Filled codec es d) (apart : Distinguished codec es)
    {e : Entry} (he : e ∈ es) (row : d.Stored (e.hash codec) id) :
    isInline id = false ∧ d.decodeFull id = some (e.info codec d) :=
  filled.decodeFull_of_stored apart.collisionFree apart.regular he row

theorem Reads.of_sameRows (h : Reads codec es d₀ ctx) (same : Dict.SameRows ctx.dict d)
    {perQuery : List (Text × Option Int)}
    (cached : ∀ c ∈ perQuery, ∀ id, c.2 = some id ↔ d₀.Stored (codec.termHash c.1 .iri) id) :
    Reads codec es d₀ ⟨perQuery, d⟩ where
  filled := h.filled.of_rows_eq same.sound same.rows (by rw [same.nextId])
  more := h.more.trans same.extends
  literals := by
    show ∀ r ∈ d.rows.rows, _
    rw [same.rows]
    exact h.literals
  cached := cached

/-- An IRI is found just if the dictionary had it at the start. -/
theorem Reads.encodeIri (h : Reads codec es d₀ ctx) (apart : Distinguished codec es) {iri : Text}
    (listed : Entry.plain iri .iri ∈ es) :
    Reads codec es d₀ (ctx.encodeIri codec session iri).2 ∧
      ∀ id, (ctx.encodeIri codec session iri).1 = some id ↔
        d₀.Stored (codec.termHash iri .iri) id := by
  rw [ValuesCtx.encodeIri]
  cases hit : ctx.perQuery.lookup iri with
  | some cached =>
    have held : (iri, cached) ∈ ctx.perQuery := by
      obtain ⟨front, back, split, -⟩ := List.lookup_eq_some_iff.mp hit
      rw [split]
      exact List.mem_append_right _ List.mem_cons_self
    exact ⟨h, h.cached (iri, cached) held⟩
  | none =>
    have found := @Dict.Sound.lookup_spec _ codec session iri .iri h.more.sound
    have answer (id : Int) := (found.answer id).trans
      (h.stored_iff apart listed (fun literal => nomatch literal))
    refine ⟨h.of_sameRows found.same ?_, answer⟩
    intro c hc
    obtain rfl | old := List.mem_cons.mp hc
    · exact answer
    · exact h.cached c old

theorem encodeLiteral_eq (value datatype : Text) (language : Option Text) (ctx : ValuesCtx) :
    ctx.encodeLiteral codec session value datatype language =
      let r := ctx.dict.encodeRdfTerm codec session (literalTerm value datatype language)
      (r.1, { ctx with dict := r.2 }) := by
  cases language with
  | some lang => rfl
  | none =>
    by_cases plain : isPlainDatatype datatype = true
    · simp only [ValuesCtx.encodeLiteral, literalTerm, if_pos plain]
      rfl
    · simp only [ValuesCtx.encodeLiteral, literalTerm, if_neg plain]
      rfl

/-- A literal is inlined, or it has the row of its entry. -/
theorem names_encodeRdfTerm (h : Filled codec es d) {value datatype : Text}
    {language : Option Text}
    (listed : ∀ e ∈ entries codec session (literalTerm value datatype language) d, e ∈ es) :
    Names codec (valuesReading codec)
        (d.encodeRdfTerm codec session (literalTerm value datatype language)).2
        (.literal value datatype language)
        (d.encodeRdfTerm codec session (literalTerm value datatype language)).1 ∧
      ∀ r ∈ (d.encodeRdfTerm codec session (literalTerm value datatype language)).2.rows.rows,
        r ∈ d.rows.rows ∨ ∃ e ∈ es, IsLiteral e ∧ r.hash = e.hash codec := by
  have ofRow {e : Entry} (he : e ∈ es) (literal : IsLiteral e) (known : e.ComponentsKnown d) :
      (d.encodeTiers session (e.hash codec) (e.info codec d)).2.Stored (e.hash codec)
          (d.encodeTiers session (e.hash codec) (e.info codec d)).1 ∧
        ∀ r ∈ (d.encodeTiers session (e.hash codec) (e.info codec d)).2.rows.rows,
          r ∈ d.rows.rows ∨ ∃ e ∈ es, IsLiteral e ∧ r.hash = e.hash codec := by
    refine ⟨(h.encodeTiers session he known).2.2, ?_⟩
    intro r hr
    exact (mem_rows_of_encodeTiers hr).imp_right fun hashed => ⟨e, he, literal, hashed⟩
  cases language with
  | some lang =>
    simp only [literalTerm, encodeRdfTerm_lang] at listed ⊢
    exact ofRow (listed _ List.mem_cons_self) trivial (fun _ _ _ other => by cases other)
  | none =>
    rw [literalTerm] at listed ⊢
    rw [Names]
    by_cases plain : isPlainDatatype datatype = true
    · simp only [if_pos plain, encodeRdfTerm_plain] at listed ⊢
      exact ofRow (listed _ List.mem_cons_self) rfl (fun _ _ _ other => by cases other)
    · simp only [if_neg plain, valuesReading] at listed ⊢
      cases inlined : tryEncodeInline codec.chrono value datatype with
      | some n =>
        rw [encodeRdfTerm_inline inlined]
        exact ⟨rfl, fun r hr => .inl hr⟩
      | none =>
        simp only [encodeRdfTerm_typed inlined]
        exact ofRow (listed _ (by simp [entries, inlined])) trivial
          (fun _ _ _ other => by cases other)

theorem Reads.encodeLiteral (h : Reads codec es d₀ ctx) {value datatype : Text}
    {language : Option Text} (listed : ∀ e ∈ consulted codec session
      (.literal value datatype language) ctx, e ∈ es) :
    Reads codec es d₀ (ctx.encodeLiteral codec session value datatype language).2 ∧
      Names codec (valuesReading codec)
        (ctx.encodeLiteral codec session value datatype language).2.dict
        (.literal value datatype language)
        (ctx.encodeLiteral codec session value datatype language).1 := by
  obtain ⟨filled, more, -⟩ := h.filled.encodeRdfTerm session _ listed
  obtain ⟨named, rows⟩ := names_encodeRdfTerm h.filled listed
  rw [encodeLiteral_eq]
  refine ⟨⟨filled, h.more.trans more, ?_, h.cached⟩, named⟩
  intro r hr
  obtain old | new := rows r hr
  · exact h.literals r old
  · exact .inr new

end Dictionary

section Shows

variable {codec : Codec} {session : Session} {es : List Entry} {d₀ d d' : Dict} {ctx : ValuesCtx}
  {t : GroundTermValue} {id : Int}

theorem ne_zero_of_known (filled : Filled codec es d) (known : Known d id) : id ≠ 0 := by
  rintro rfl
  obtain negative | ⟨r, hr, named⟩ := known
  · cases negative
  · have := (filled.bounds r hr).1
    omega

theorem known_of_names (named : Names codec (valuesReading codec) d t id) : Known d id := by
  cases t with
  | namedNode iri => exact .inr (Dict.Stored.hasRow named)
  | literal value datatype language =>
    cases language with
    | some lang => exact .inr (Dict.Stored.hasRow named)
    | none =>
      rw [Names] at named
      by_cases plain : isPlainDatatype datatype = true
      · rw [if_pos plain] at named
        exact .inr named.hasRow
      · simp only [if_neg plain, valuesReading] at named
        cases inlined : tryEncodeInline codec.chrono value datatype with
        | some n =>
          rw [inlined] at named
          have same : n = id := named
          exact .inl (isInline_of_tryEncodeInline (same ▸ inlined))
        | none =>
          rw [inlined] at named
          exact .inr (Dict.Stored.hasRow named)
  | triple s p o =>
    obtain ⟨_, _, _, _, _, _, row⟩ := named
    exact .inr row.hasRow

theorem shownCell_of_more (unique : UniqueIds d) (unique' : UniqueIds d')
    (rows : ∀ r ∈ d.rows.rows, r ∈ d'.rows.rows) (known : Known d id) :
    shownCell codec d' id = shownCell codec d id := by
  rw [shownCell, shownCell]
  obtain negative | ⟨r, hr, rfl⟩ := known
  · rw [if_pos negative, if_pos negative]
  · rw [unique.decodeFull hr, unique'.decodeFull (rows r hr)]

theorem shownCell_eq (filled : Filled codec es d) (known : Known d id) :
    shownCell codec d id = some (d.formatNtriples codec id) := by
  rw [shownCell, Dict.formatNtriples]
  by_cases negative : isInline id = true
  · rw [if_pos negative, if_pos negative]
  · rw [if_neg negative, if_neg negative]
    obtain inlined | ⟨r, hr, rfl⟩ := known
    · exact absurd inlined negative
    · rw [filled.unique.decodeFull hr]
      rfl

theorem formatNtriples_iri (filled : Filled codec es d) (apart : Distinguished codec es)
    {iri : Text} (listed : Entry.plain iri .iri ∈ es)
    (row : d.Stored (codec.termHash iri .iri) id) :
    d.formatNtriples codec id = '<' :: iri ++ ['>'] := by
  obtain ⟨positive, decoded⟩ := decodeFull_of_stored filled apart listed row
  exact formatNtriples_of_row positive decoded

theorem isPlainDatatype_iff {datatype : Text} :
    isPlainDatatype datatype = true ↔ datatype = xsd "string" ∨ datatype = rdfLangString := by
  rw [isPlainDatatype, Bool.or_eq_true, decide_eq_true_iff, decide_eq_true_iff]
  exact Iff.rfl

/-- A literal is shown as it is written just if it is written as the dictionary would. -/
theorem formatNtriples_literal_iff (filled : Filled codec es d) (apart : Distinguished codec es)
    {value datatype : Text} {language : Option Text} (bracketFree : '<' ∉ datatype)
    (listed : ∀ e ∈ entries codec session (literalTerm value datatype language) d', e ∈ es)
    (named : Names codec (valuesReading codec) d (.literal value datatype language) id) :
    d.formatNtriples codec id = (GroundTermValue.literal value datatype language).ntriples ↔
      (GroundTermValue.literal value datatype language).Faithful codec.chrono := by
  cases language with
  | some lang =>
    have here : Entry.lang value lang ∈ es := listed _ List.mem_cons_self
    obtain ⟨positive, decoded⟩ := decodeFull_of_stored filled apart here named
    rw [formatNtriples_of_row positive decoded]
    exact iff_of_true rfl trivial
  | none =>
    rw [literalTerm] at listed
    rw [Names] at named
    by_cases plain : isPlainDatatype datatype = true
    · rw [if_pos plain] at named listed
      have here : Entry.plain value .literal ∈ es := listed _ List.mem_cons_self
      obtain ⟨positive, decoded⟩ := decodeFull_of_stored filled apart here named
      rw [formatNtriples_of_row positive decoded, GroundTermValue.Faithful]
      have notInlined : tryEncodeInline codec.chrono value datatype = none := by
        have other : Datatype.ofIri datatype = .other := by
          obtain rfl | rfl := isPlainDatatype_iff.mp plain <;> decide
        rw [tryEncodeInline, other]
      simp only [notInlined, reduceCtorEq, false_imp_iff, implies_true, and_true]
      show '"' :: escapeLiteral value ++ ['"'] = _ ↔ _
      rw [GroundTermValue.ntriples]
      obtain rfl | rfl := isPlainDatatype_iff.mp plain
      · rw [if_pos rfl]
        exact iff_of_true rfl (by decide)
      · rw [if_neg (by decide)]
        refine iff_of_false ?_ (fun other => other rfl)
        intro same
        have lengths := congrArg List.length same
        simp at lengths
    · simp only [if_neg plain, valuesReading] at named listed
      have notString : datatype ≠ xsd "string" :=
        fun string => plain (isPlainDatatype_iff.mpr (.inl string))
      have notLang : datatype ≠ rdfLangString :=
        fun lang => plain (isPlainDatatype_iff.mpr (.inr lang))
      have text : (GroundTermValue.literal value datatype none).ntriples =
          writeTyped (escapeLiteral value) datatype := by
        rw [GroundTermValue.ntriples, if_neg notString, writeTyped]
      rw [text, GroundTermValue.Faithful]
      cases inlined : tryEncodeInline codec.chrono value datatype with
      | some n =>
        rw [inlined] at named
        have same : n = id := named
        subst same
        have literal : Inlined codec.chrono ⟨value, datatype, bracketFree⟩ n :=
          inlined_iff.mp inlined
        have prints := prints_of_inlined literal
        have asPrinted := escapeLiteral_plain prints.plain
        have noBracket : '<' ∉ (inlineParts codec.chrono n).2 :=
          fun bracket => (prints.iriText _ bracket).1 rfl
        rw [Dict.formatNtriples, if_pos (isInline_of_tryEncodeInline inlined), formatInline_eq]
        constructor
        · intro same
          obtain ⟨values, datatypes⟩ := writeTyped_inj noBracket bracketFree same
          rw [← asPrinted] at values
          refine ⟨notLang, ?_⟩
          rintro id found
          cases found
          exact Prod.ext (escapeLiteral_injective values) datatypes
        · rintro ⟨-, printed⟩
          rw [← asPrinted, printed n rfl]
      | none =>
        rw [inlined] at named
        have here : Entry.typed value datatype ∈ es := listed _ (by simp [entries, inlined])
        obtain ⟨positive, decoded⟩ := decodeFull_of_stored filled apart here named
        rw [formatNtriples_of_row positive decoded]
        exact iff_of_true rfl ⟨notLang, fun _ found => by cases found⟩

end Shows

section Block

variable {codec : Codec} {session : Session} {es : List Entry} {d₀ d d' : Dict} {ctx : ValuesCtx}
  {t : GroundTermValue} {id : Int}

/-- What a cell with the term `t` gets: the id that leads back to it if the dictionary has it,
and `0` otherwise. -/
structure CellSpec (codec : Codec) (d₀ d : Dict) (t : GroundTermValue) (id : Int) : Prop where
  zero : ¬ t.Available codec d₀ → id = 0
  names : t.Available codec d₀ → Names codec (valuesReading codec) d t id
  shows : t.Available codec d₀ →
    (shownCell codec d id = some t.ntriples ↔ t.Faithful codec.chrono)

/-- Nothing changes for a cell when later cells are encoded. -/
theorem CellSpec.mono (h : CellSpec codec d₀ d t id) (unique : UniqueIds d) (unique' : UniqueIds d')
    (more : Dict.Extends d d') : CellSpec codec d₀ d' t id where
  zero := h.zero
  names available := (h.names available).mono fun _ _ row => more.stored row
  shows available := by
    rw [shownCell_of_more unique unique' more.rows (known_of_names (h.names available))]
    exact h.shows available

/-- The step for one term. Which of the two cases it is can be read off the dictionary of the
moment as well as off the one at the start. -/
structure TermSpec (codec : Codec) (es : List Entry) (d₀ : Dict) (ctx : ValuesCtx)
    (t : GroundTermValue) (r : Int × ValuesCtx) : Prop where
  reads : Reads codec es d₀ r.2
  more : Dict.Extends ctx.dict r.2.dict
  outcome : Names codec (valuesReading codec) r.2.dict t r.1 ∨
    (r.1 = 0 ∧ ¬ t.Available codec d₀ ∧ ∀ id, ¬ Names codec (valuesReading codec) r.2.dict t id)
  available : (∃ id, Names codec (valuesReading codec) r.2.dict t id) → t.Available codec d₀
  back : ∀ id, Names codec (valuesReading codec) r.2.dict t id → Known d₀ id →
    Names codec (valuesReading codec) d₀ t id
  shows : ∀ id, Names codec (valuesReading codec) r.2.dict t id →
    (r.2.dict.formatNtriples codec id = t.ntriples ↔ t.Faithful codec.chrono)

/-- A row with an id of the old dictionary is an old row. -/
theorem stored_of_known {hash128 : Hash} (filled : Filled codec es d) (more : Dict.Extends d₀ d)
    (row : d.Stored hash128 id) (known : Known d₀ id) : d₀.Stored hash128 id := by
  obtain ⟨r, hr, hashed, rfl⟩ := row
  obtain negative | ⟨r₀, hr₀, named⟩ := known
  · have positive := (filled.bounds r hr).1
    rw [isInline, decide_eq_true_iff] at negative
    omega
  · rw [filled.unique r₀ (more.rows r₀ hr₀) r hr named] at hr₀
    exact ⟨r, hr₀, hashed, rfl⟩

theorem Reads.names_iri_iff (h : Reads codec es d₀ ctx) (apart : Distinguished codec es)
    {iri : Text} (listed : Entry.plain iri .iri ∈ es) :
    ctx.dict.Stored (codec.termHash iri .iri) id ↔ d₀.Stored (codec.termHash iri .iri) id :=
  h.stored_iff apart listed (fun literal => nomatch literal)

theorem Reads.extends_encodeIri (h : Reads codec es d₀ ctx) (iri : Text) :
    Dict.Extends ctx.dict (ctx.encodeIri codec session iri).2.dict := by
  rw [ValuesCtx.encodeIri]
  split
  · exact .refl h.more.sound
  · exact (Dict.Sound.lookup_spec h.more.sound).same.extends

theorem termSpec_namedNode (h : Reads codec es d₀ ctx) (apart : Distinguished codec es) {iri : Text}
    (listed : Entry.plain iri .iri ∈ es) :
    TermSpec codec es d₀ ctx (.namedNode iri)
      (InlineData.encodeGroundTerm codec session (.namedNode iri) ctx) := by
  obtain ⟨reads, found⟩ := @Reads.encodeIri _ session _ _ _ h apart _ listed
  refine ⟨reads, h.extends_encodeIri iri, ?_, ?_, ?_, ?_⟩
  · cases answer : (ctx.encodeIri codec session iri).1 with
    | some id =>
      rw [answer] at found
      left
      show Names _ _ _ _ ((ctx.encodeIri codec session iri).1.getD 0)
      rw [answer]
      exact reads.more.stored ((found id).mp rfl)
    | none =>
      rw [answer] at found
      right
      have absent (id : Int) : ¬ d₀.Stored (codec.termHash iri .iri) id := by
        intro row
        cases (found id).mpr row
      refine ⟨?_, ?_, ?_⟩
      · show (ctx.encodeIri codec session iri).1.getD 0 = 0
        rw [answer]
        rfl
      · rintro ⟨id, row⟩
        exact absent id row
      · exact fun id row => absent id ((reads.names_iri_iff apart listed).mp row)
  · rintro ⟨id, row⟩
    exact ⟨id, (reads.names_iri_iff apart listed).mp row⟩
  · exact fun id row _ => (reads.names_iri_iff apart listed).mp row
  · exact fun id row => iff_of_true (formatNtriples_iri reads.filled apart listed row) trivial

theorem termSpec_literal (h : Reads codec es d₀ ctx) (apart : Distinguished codec es)
    {value datatype : Text} {language : Option Text}
    (wellFormed : (GroundTermValue.literal value datatype language).WellFormed)
    (listed : ∀ e ∈ consulted codec session (.literal value datatype language) ctx, e ∈ es) :
    TermSpec codec es d₀ ctx (.literal value datatype language)
      (InlineData.encodeGroundTerm codec session (.literal value datatype language) ctx) := by
  obtain ⟨reads, named⟩ := h.encodeLiteral listed
  have bracketFree : '<' ∉ datatype := by
    intro bracket
    cases language with
    | none => exact (wellFormed _ bracket).1 rfl
    | some lang =>
      rw [wellFormed.1] at bracket
      revert bracket
      decide
  refine ⟨reads, ?_, .inl named, fun _ => trivial, ?_, ?_⟩
  · show Dict.Extends ctx.dict (ctx.encodeLiteral codec session value datatype language).2.dict
    rw [encodeLiteral_eq]
    exact (h.filled.encodeRdfTerm session _ listed).2.1
  · intro id here known
    have old {hash128 : Hash} := @stored_of_known codec es d₀ _ id hash128 reads.filled reads.more
    cases language with
    | some lang => exact old here known
    | none =>
      rw [Names] at here ⊢
      by_cases plain : isPlainDatatype datatype = true
      · rw [if_pos plain] at here ⊢
        exact old here known
      · simp only [if_neg plain, valuesReading] at here ⊢
        cases inlined : tryEncodeInline codec.chrono value datatype with
        | some n =>
          rw [inlined] at here
          exact here
        | none =>
          rw [inlined] at here
          exact old here known
  · exact fun id here => formatNtriples_literal_iff reads.filled apart bracketFree listed here

/-- A quoted triple that has a row has known components. -/
theorem components_of_stored {i j k : Int} (filled : Filled codec es d)
    (apart : Distinguished codec es) (listed : Entry.quoted i j k ∈ es)
    (row : d.Stored (codec.quotedTripleHash i j k) id) : Known d i ∧ Known d j ∧ Known d k := by
  obtain ⟨-, decoded⟩ := decodeFull_of_stored filled apart listed row
  obtain ⟨r, hr, -, rfl⟩ := row
  rw [filled.unique.decodeFull hr, Option.some_inj] at decoded
  exact filled.components r hr i j k (by rw [decoded]; rfl)

theorem getD_eq_of_known {found : Option Int} (filled : Filled codec es d)
    (known : Known d (found.getD 0)) : found = some (found.getD 0) := by
  cases found with
  | none => exact absurd rfl (ne_zero_of_known filled known)
  | some id => rfl

theorem ntriples_triple_iff {s p : Text} {o : GroundTermValue} {i j k : Int}
    (subject : d.formatNtriples codec i = '<' :: s ++ ['>'])
    (predicate : d.formatNtriples codec j = '<' :: p ++ ['>']) :
    canonicalText codec d i j k = (GroundTermValue.triple s p o).ntriples ↔
      d.formatNtriples codec k = o.ntriples := by
  rw [canonicalText_eq, GroundTermValue.ntriples, subject, predicate, List.append_left_inj,
    List.append_right_inj]

/-- A quoted triple is found if its components are and the dictionary has it. -/
theorem termSpec_triple (h : Reads codec es d₀ ctx) (start : Filled codec es d₀)
    (apart : Distinguished codec es) {s p : Text} {o : GroundTermValue}
    (listed : ∀ e ∈ consulted codec session (.triple s p o) ctx, e ∈ es)
    (object : ∀ ctx : ValuesCtx, Reads codec es d₀ ctx →
      (∀ e ∈ consulted codec session o ctx, e ∈ es) →
      TermSpec codec es d₀ ctx o (InlineData.encodeGroundTerm codec session o ctx)) :
    TermSpec codec es d₀ ctx (.triple s p o)
      (InlineData.encodeGroundTerm codec session (.triple s p o) ctx) := by
  simp only [consulted, List.mem_append, List.mem_cons, List.not_mem_nil, or_false] at listed
  have listedS := listed (.plain s .iri) (.inl (.inl (.inl rfl)))
  have listedP := listed (.plain p .iri) (.inl (.inl (.inr rfl)))
  obtain ⟨readsA, foundA⟩ := @Reads.encodeIri _ session _ _ _ h apart _ listedS
  have extendsA := @Reads.extends_encodeIri _ session _ _ _ h s
  rw [InlineData.encodeGroundTerm]
  generalize ctx.encodeIri codec session s = a at *
  obtain ⟨sId, ctxA⟩ := a
  obtain ⟨readsB, foundB⟩ := @Reads.encodeIri _ session _ _ _ readsA apart _ listedP
  have extendsB := @Reads.extends_encodeIri _ session _ _ _ readsA p
  dsimp only at *
  generalize ctxA.encodeIri codec session p = b at *
  obtain ⟨pId, ctxB⟩ := b
  dsimp only at *
  have spec := object ctxB readsB fun e he => listed e (.inl (.inr he))
  have listedQ := listed _ (.inr rfl)
  generalize InlineData.encodeGroundTerm codec session o ctxB = c at *
  obtain ⟨oId, ctxC⟩ := c
  dsimp only at *
  have found := @Dict.Sound.lookupQuotedTriple_spec _ codec session (sId.getD 0) (pId.getD 0)
    oId spec.reads.more.sound
  generalize ctxC.dict.lookupQuotedTriple codec session (sId.getD 0) (pId.getD 0) oId = l at *
  obtain ⟨answer, D⟩ := l
  dsimp only at *
  have reads : Reads codec es d₀ ⟨ctxC.perQuery, D⟩ :=
    spec.reads.of_sameRows found.same spec.reads.cached
  -- the ids of the components are the ones that were looked up
  have components {id : Int}
      (named : Names codec (valuesReading codec) D (.triple s p o) id) :
      ∃ i j, sId = some i ∧ pId = some j ∧ D.Stored (codec.termHash s .iri) i ∧
        D.Stored (codec.termHash p .iri) j ∧ Names codec (valuesReading codec) D o oId ∧
        D.Stored (codec.quotedTripleHash i j oId) id := by
    obtain ⟨i, hi, j, hj, k, hk, row⟩ := named
    have subject := (foundA i).mpr ((reads.names_iri_iff apart listedS).mp hi)
    have predicate := (foundB j).mpr ((reads.names_iri_iff apart listedP).mp hj)
    have here := (names_congr fun _ _ => found.same.stored).mp hk
    obtain named | ⟨-, -, none⟩ := spec.outcome
    · cases here.unique named
      exact ⟨i, j, subject, predicate, hi, hj, hk, row⟩
    · exact absurd here (none k)
  have back {id : Int} (named : Names codec (valuesReading codec) D (.triple s p o) id) :
      Names codec (valuesReading codec) d₀ (.triple s p o) id := by
    obtain ⟨i, j, rfl, rfl, hi, hj, hk, row⟩ := components named
    have old := (reads.stored_iff apart listedQ (fun literal => literal)).mp row
    have known := components_of_stored start apart listedQ old
    have here := (names_congr fun _ _ => found.same.stored).mp hk
    exact ⟨i, (reads.names_iri_iff apart listedS).mp hi, j,
      (reads.names_iri_iff apart listedP).mp hj, oId, spec.back oId here known.2.2, old⟩
  refine ⟨reads, ?_, ?_, ?_, fun id named _ => back named, ?_⟩
  · exact extendsA.trans (extendsB.trans (spec.more.trans found.same.extends))
  · cases answer with
    | some id =>
      left
      have row := (found.answer id).mp rfl
      have known := components_of_stored spec.reads.filled apart listedQ row
      have subject := getD_eq_of_known spec.reads.filled known.1
      have predicate := getD_eq_of_known spec.reads.filled known.2.1
      have hi := reads.more.stored ((foundA _).mp subject)
      have hj := reads.more.stored ((foundB _).mp predicate)
      obtain named | ⟨zero, -, -⟩ := spec.outcome
      · have hk := (names_congr fun _ _ => found.same.stored).mpr named
        exact ⟨_, hi, _, hj, oId, hk, found.same.stored.mpr row⟩
      · exact absurd zero (ne_zero_of_known spec.reads.filled known.2.2)
    | none =>
      right
      have none (id : Int) : ¬ Names codec (valuesReading codec) D (.triple s p o) id := by
        intro named
        obtain ⟨i, j, rfl, rfl, -, -, -, row⟩ := components named
        cases (found.answer id).mpr (found.same.stored.mp row)
      refine ⟨rfl, ?_, none⟩
      rintro ⟨id, named⟩
      exact none id (named.mono fun _ _ row => reads.more.stored row)
  · rintro ⟨id, named⟩
    exact ⟨id, back named⟩
  · intro id named
    obtain ⟨i, j, rfl, rfl, hi, hj, hk, row⟩ := components named
    obtain ⟨positive, decoded⟩ := decodeFull_of_stored reads.filled apart listedQ row
    have here := (names_congr fun _ _ => found.same.stored).mp hk
    rw [formatNtriples_of_row positive decoded]
    refine (ntriples_triple_iff (formatNtriples_iri reads.filled apart listedS hi)
      (formatNtriples_iri reads.filled apart listedP hj)).trans ?_
    rw [formatNtriples_congr found.same.rows]
    exact spec.shows oId here

theorem termSpec_encodeGroundTerm (start : Filled codec es d₀) (apart : Distinguished codec es)
    (wellFormed : t.WellFormed) (h : Reads codec es d₀ ctx)
    (listed : ∀ e ∈ consulted codec session t ctx, e ∈ es) :
    TermSpec codec es d₀ ctx t (InlineData.encodeGroundTerm codec session t ctx) := by
  induction t generalizing ctx with
  | namedNode iri => exact termSpec_namedNode h apart (listed _ List.mem_cons_self)
  | literal value datatype language => exact termSpec_literal h apart wellFormed listed
  | triple s p o ih =>
    exact termSpec_triple h start apart listed fun ctx reads => ih wellFormed.2.2 reads

theorem TermSpec.cell {r : Int × ValuesCtx} (spec : TermSpec codec es d₀ ctx t r) :
    CellSpec codec d₀ r.2.dict t r.1 where
  zero missing := by
    obtain named | ⟨zero, -⟩ := spec.outcome
    · exact absurd (spec.available ⟨_, named⟩) missing
    · exact zero
  names available := by
    obtain named | ⟨-, missing, -⟩ := spec.outcome
    · exact named
    · exact absurd available missing
  shows available := by
    obtain named | ⟨-, missing, -⟩ := spec.outcome
    · rw [shownCell_eq spec.reads.filled (known_of_names named), Option.some_inj]
      exact spec.shows _ named
    · exact absurd available missing

end Block

/-- The cells of the block, row by row; a row has a cell for each variable. -/
def blockCells (vars : List String) (bindings : List (List (Option GroundTermValue))) :
    List (Option GroundTermValue) :=
  bindings.flatMap fun row => row.take vars.length

/-- The terms with the ids of their cells. -/
def cellIds (cells : List (Option GroundTermValue)) (ids : List (Option Int)) :
    List (GroundTermValue × Int) :=
  (cells.zip ids).filterMap fun c => c.1.bind fun t => c.2.map fun id => (t, id)

/-- Ids are as different as their terms, none is the one of the default graph, and each is shown
as its term. -/
structure KeepsApart (codec : Codec) (d : Dict) (cells : List (GroundTermValue × Int)) : Prop where
  apart : ∀ a ∈ cells, ∀ b ∈ cells, a.2 = b.2 ↔ a.1 = b.1
  notDefault : ∀ a ∈ cells, a.2 ≠ 0
  decodes : ∀ a ∈ cells, shownCell codec d a.2 = some a.1.ntriples

section Blocks

variable {codec : Codec} {session : Session} {es : List Entry} {d₀ d : Dict} {ctx : ValuesCtx}
  {vars : List String} {bindings : List (List (Option GroundTermValue))}
  {cells : List (Option GroundTermValue)}

theorem encodeCells_append (front back : List (Option GroundTermValue)) (ctx : ValuesCtx) :
    encodeCells codec session (front ++ back) ctx =
      let r := encodeCells codec session front ctx
      let r' := encodeCells codec session back r.2
      (r.1 ++ r'.1, r'.2) := by
  induction front generalizing ctx with
  | nil => rfl
  | cons cell front ih =>
    cases cell with
    | none => simp only [List.cons_append, encodeCells, ih]
    | some t => simp only [List.cons_append, encodeCells, ih]

theorem encodeRows_eq (rows : List (List (Option GroundTermValue))) (ctx : ValuesCtx) :
    ((encodeRows codec session vars rows ctx).1.flatten,
        (encodeRows codec session vars rows ctx).2) =
      encodeCells codec session (blockCells vars rows) ctx := by
  induction rows generalizing ctx with
  | nil => rfl
  | cons row rows ih =>
    have later := ih (encodeCells codec session (row.take vars.length) ctx).2
    rw [blockCells, List.flatMap_cons, encodeCells_append]
    rw [blockCells] at later
    dsimp only
    rw [← later]
    rfl

theorem InlineData.translateValues_eq (d : Dict) :
    ((InlineData.translateValues codec session vars bindings d).1.flatten,
        (InlineData.translateValues codec session vars bindings d).2) =
      let r := encodeCells codec session (blockCells vars bindings) ⟨[], d⟩
      (r.1, r.2.dict) := by
  rw [InlineData.translateValues]
  split
  · rename_i empty
    have none : blockCells vars bindings = [] := by
      obtain empty | empty := empty
      · simp [blockCells, List.isEmpty_iff.mp empty]
      · simp [blockCells, List.isEmpty_iff.mp empty]
    rw [none]
    rfl
  · rw [← encodeRows_eq]

theorem mem_cellIds_cons {cell : Option GroundTermValue} {ids : List (Option Int)}
    {id : Option Int} {a : GroundTermValue × Int} :
    a ∈ cellIds (cell :: cells) (id :: ids) ↔
      (cell = some a.1 ∧ id = some a.2) ∨ a ∈ cellIds cells ids := by
  obtain ⟨t, i⟩ := a
  cases cell <;> cases id <;> simp [cellIds, eq_comm]

/-- The run over the cells, with what each of them gets. -/
theorem encodeCells_spec (start : Filled codec es d₀) (apart : Distinguished codec es)
    (wellFormed : ∀ t, some t ∈ cells → t.WellFormed) (h : Reads codec es d₀ ctx)
    (listed : ∀ e ∈ allConsulted codec session cells ctx, e ∈ es) :
    let r := encodeCells codec session cells ctx
    Reads codec es d₀ r.2 ∧ Dict.Extends ctx.dict r.2.dict ∧
      ∀ a ∈ cellIds cells r.1, CellSpec codec d₀ r.2.dict a.1 a.2 := by
  induction cells generalizing ctx with
  | nil => exact ⟨h, .refl h.more.sound, fun a ha => nomatch ha⟩
  | cons cell cells ih =>
    have later (t : GroundTermValue) (ht : some t ∈ cells) :=
      wellFormed t (List.mem_cons_of_mem _ ht)
    cases cell with
    | none =>
      obtain ⟨reads, more, specs⟩ := ih later h listed
      refine ⟨reads, more, ?_⟩
      intro a ha
      obtain ⟨first, -⟩ | rest := mem_cellIds_cons.mp ha
      · cases first
      · exact specs a rest
    | some t =>
      rw [allConsulted] at listed
      have spec := @termSpec_encodeGroundTerm _ session _ _ _ _ start apart
        (wellFormed t List.mem_cons_self) h fun e he => listed e (List.mem_append_left _ he)
      obtain ⟨reads, more, specs⟩ := ih later spec.reads
        fun e he => listed e (List.mem_append_right _ he)
      refine ⟨reads, spec.more.trans more, ?_⟩
      intro a ha
      obtain ⟨first, second⟩ | rest := mem_cellIds_cons.mp ha
      · rw [← Option.some.inj first, ← Option.some.inj second]
        exact spec.cell.mono spec.reads.filled.unique reads.filled.unique more
      · exact specs a rest

theorem exists_cellIds_of_mem (ctx : ValuesCtx) {t : GroundTermValue} (mem : some t ∈ cells) :
    ∃ id, (t, id) ∈ cellIds cells (encodeCells codec session cells ctx).1 := by
  induction cells generalizing ctx with
  | nil => cases mem
  | cons cell cells ih =>
    cases cell with
    | none =>
      obtain ⟨id, found⟩ := ih ctx (by simpa using mem)
      exact ⟨id, mem_cellIds_cons.mpr (.inr found)⟩
    | some first =>
      obtain same | rest := List.mem_cons.mp mem
      · cases same
        exact ⟨_, mem_cellIds_cons.mpr (.inl ⟨rfl, rfl⟩)⟩
      · obtain ⟨id, found⟩ := ih (InlineData.encodeGroundTerm codec session first ctx).2 rest
        exact ⟨id, mem_cellIds_cons.mpr (.inr found)⟩

theorem mem_of_mem_cellIds {ids : List (Option Int)} {a : GroundTermValue × Int}
    (mem : a ∈ cellIds cells ids) : some a.1 ∈ cells := by
  simp only [cellIds, List.mem_filterMap, Option.bind_eq_some_iff, Option.map_eq_some_iff] at mem
  obtain ⟨c, hc, t, ht, id, -, rfl⟩ := mem
  rw [← ht]
  exact (List.of_mem_zip hc).1

/-- Ids that were given by the rules keep their terms apart if and only if the dictionary had all
of the terms and shows them as they are written. -/
theorem keepsApart_iff (filled : Filled codec es d) {ids : List (Option Int)}
    (wellFormed : ∀ t, some t ∈ cells → t.WellFormed)
    (specs : ∀ a ∈ cellIds cells ids, CellSpec codec d₀ d a.1 a.2)
    (all : ∀ t, some t ∈ cells → ∃ id, (t, id) ∈ cellIds cells ids) :
    KeepsApart codec d (cellIds cells ids) ↔
      ∀ t, some t ∈ cells → t.Available codec d₀ ∧ t.Faithful codec.chrono := by
  constructor
  · intro keeps t mem
    obtain ⟨id, here⟩ := all t mem
    have spec := specs _ here
    have available : t.Available codec d₀ := by
      by_contra missing
      exact keeps.notDefault _ here (spec.zero missing)
    exact ⟨available, (spec.shows available).mp (keeps.decodes _ here)⟩
  · intro known
    have shown (a : GroundTermValue × Int) (ha : a ∈ cellIds cells ids) :
        Names codec (valuesReading codec) d a.1 a.2 ∧
          shownCell codec d a.2 = some a.1.ntriples := by
      obtain ⟨available, faithful⟩ := known a.1 (mem_of_mem_cellIds ha)
      exact ⟨(specs a ha).names available, ((specs a ha).shows available).mpr faithful⟩
    refine ⟨?_, ?_, fun a ha => (shown a ha).2⟩
    · intro a ha b hb
      constructor
      · intro same
        have texts := (shown a ha).2.symm.trans ((congrArg _ same).trans (shown b hb).2)
        exact GroundTermValue.ntriples_inj (wellFormed _ (mem_of_mem_cellIds ha))
          (wellFormed _ (mem_of_mem_cellIds hb)) (Option.some.inj texts)
      · intro same
        have other := (shown b hb).1
        rw [← same] at other
        exact (shown a ha).1.unique other
    · exact fun a ha => ne_zero_of_known filled (known_of_names (shown a ha).1)

theorem regular_entries_literal {value datatype : Text} {language : Option Text}
    (wellFormed : (GroundTermValue.literal value datatype language).WellFormed) (d : Dict) :
    ∀ e ∈ entries codec session (literalTerm value datatype language) d, e.Regular := by
  intro e he
  cases language with
  | some lang =>
    cases List.mem_singleton.mp he
    intro at_
    have := wellFormed.2 _ at_
    revert this
    decide
  | none =>
    rw [literalTerm] at he
    split at he
    · cases List.mem_singleton.mp he
      exact .inr (.inr rfl)
    · rw [entries] at he
      split at he
      · cases he
      · cases List.mem_singleton.mp he
        exact fun bracket => (wellFormed _ bracket).1 rfl

theorem regular_consulted {t : GroundTermValue} (wellFormed : t.WellFormed) (ctx : ValuesCtx) :
    ∀ e ∈ consulted codec session t ctx, e.Regular := by
  induction t generalizing ctx with
  | namedNode iri =>
    intro e he
    cases List.mem_singleton.mp he
    exact .inl rfl
  | literal value datatype language => exact regular_entries_literal wellFormed ctx.dict
  | triple s p o ih =>
    intro e he
    simp only [consulted, List.mem_append, List.mem_cons, List.not_mem_nil, or_false] at he
    obtain ((rfl | rfl) | inner) | rfl := he
    · exact .inl rfl
    · exact .inl rfl
    · exact ih wellFormed.2.2 _ e inner
    · trivial

theorem regular_allConsulted (wellFormed : ∀ t, some t ∈ cells → t.WellFormed) (ctx : ValuesCtx) :
    ∀ e ∈ allConsulted codec session cells ctx, e.Regular := by
  induction cells generalizing ctx with
  | nil => exact fun e he => nomatch he
  | cons cell cells ih =>
    have later (t : GroundTermValue) (ht : some t ∈ cells) :=
      wellFormed t (List.mem_cons_of_mem _ ht)
    cases cell with
    | none => exact ih later ctx
    | some t =>
      intro e he
      obtain here | rest := List.mem_append.mp he
      · exact regular_consulted (wellFormed t List.mem_cons_self) ctx e here
      · exact ih later _ e rest

/-- A block keeps its terms apart if and only if the dictionary has all of its IRIs and quoted
triples and each literal is written as it is printed. -/
theorem translateValues_keepsApart_iff (codec : Codec) (session : Session) (vars : List String)
    (bindings : List (List (Option GroundTermValue))) (filled : Filled codec es d)
    (regular : ∀ e ∈ es, e.Regular)
    (collisionFree : NoCollision codec
      (es ++ allConsulted codec session (blockCells vars bindings) ⟨[], d⟩))
    (wellFormed : ∀ t, some t ∈ blockCells vars bindings → t.WellFormed) :
    let r := InlineData.translateValues codec session vars bindings d
    KeepsApart codec r.2 (cellIds (blockCells vars bindings) r.1.flatten) ↔
      ∀ t, some t ∈ blockCells vars bindings →
        t.Available codec d ∧ t.Faithful codec.chrono := by
  have more (e : Entry) (he : e ∈ es) :
      e ∈ es ++ allConsulted codec session (blockCells vars bindings) ⟨[], d⟩ :=
    List.mem_append_left _ he
  have apart : Distinguished codec
      (es ++ allConsulted codec session (blockCells vars bindings) ⟨[], d⟩) := by
    refine ⟨collisionFree, ?_⟩
    intro e he
    obtain old | new := List.mem_append.mp he
    · exact regular e old
    · exact regular_allConsulted wellFormed _ e new
  have start := filled.mono more
  have reads : Reads codec (es ++ allConsulted codec session (blockCells vars bindings) ⟨[], d⟩) d
      ⟨[], d⟩ := by
    exact ⟨start, .refl filled.sound, fun r hr => .inl hr, fun c hc => nomatch hc⟩
  obtain ⟨reads', -, specs⟩ := encodeCells_spec start apart wellFormed reads
    fun e he => List.mem_append_right _ he
  obtain ⟨rows, dict⟩ := Prod.mk.inj
    (@InlineData.translateValues_eq codec session vars bindings d)
  dsimp only
  rw [rows, dict]
  exact keepsApart_iff reads'.filled wellFormed specs
    fun t mem => exists_cellIds_of_mem ⟨[], d⟩ mem

end Blocks

/-- The dictionary that has `<a>`. -/
def letterDict : Dict := ((Dict.initial false 0).encode Dict.letterCodec 0 ['a'] .iri).2

theorem filled_letterDict : Filled Dict.letterCodec [.plain ['a'] .iri] letterDict := by
  have listed : ∀ e ∈ entries Dict.letterCodec 0 (.plain ['a'] .iri) (Dict.initial false 0),
      e ∈ [Entry.plain ['a'] .iri] := fun e he => he
  exact ((filled_initial _ _ false 0).encodeRdfTerm 0 _ listed).1

theorem wellFormed_letter {c : Char} (letter : c ≠ '<' ∧ c ≠ '>' ∧ isWhitespace c = false) :
    (GroundTermValue.namedNode [c]).WellFormed := by
  intro c' hc
  rw [List.mem_singleton.mp hc]
  exact letter

/-- `VALUES (?x ?y) { (<a> "x") }`, where the literal is new. -/
theorem translateValues_keepsApart_known :
    KeepsApart Dict.letterCodec
      (InlineData.translateValues Dict.letterCodec 0 ["x", "y"]
        [[some (.namedNode ['a']), some (.literal ['x'] (xsd "string") none)]] letterDict).2
      (cellIds [some (.namedNode ['a']), some (.literal ['x'] (xsd "string") none)]
        (InlineData.translateValues Dict.letterCodec 0 ["x", "y"]
          [[some (.namedNode ['a']), some (.literal ['x'] (xsd "string") none)]]
          letterDict).1.flatten) := by
  have known : ∃ id, letterDict.Stored (Dict.letterCodec.termHash ['a'] .iri) id :=
    ⟨_, ((Dict.sound_initial false 0).encode Dict.letterCodec 0 ['a'] .iri).2⟩
  refine (translateValues_keepsApart_iff Dict.letterCodec 0 ["x", "y"]
    [[some (.namedNode ['a']), some (.literal ['x'] (xsd "string") none)]] filled_letterDict
    ?_ ?_ ?_).mpr ?_
  · exact List.forall_mem_singleton.mpr (.inl rfl)
  · decide
  · intro t ht
    obtain same | ht := List.mem_cons.mp ht
    · cases same
      exact wellFormed_letter (by decide)
    · cases List.mem_singleton.mp ht
      exact iriText_of_all (by decide)
  · intro t ht
    obtain same | ht := List.mem_cons.mp ht
    · cases same
      exact ⟨known, trivial⟩
    · cases List.mem_singleton.mp ht
      refine ⟨trivial, by decide, ?_⟩
      rw [tryEncodeInline_string]
      exact fun _ found => nomatch found

/-- `VALUES ?x { <a> <b> }` over an empty dictionary: both IRIs become the default graph. -/
theorem not_translateValues_keepsApart :
    ¬ ∀ (codec : Codec) (session : Session) (vars : List String)
      (bindings : List (List (Option GroundTermValue))) (es : List Entry) (d : Dict),
      Filled codec es d → (∀ e ∈ es, e.Regular) →
      NoCollision codec (es ++ allConsulted codec session (blockCells vars bindings) ⟨[], d⟩) →
      (∀ t, some t ∈ blockCells vars bindings → t.WellFormed) →
      KeepsApart codec (InlineData.translateValues codec session vars bindings d).2
        (cellIds (blockCells vars bindings)
          (InlineData.translateValues codec session vars bindings d).1.flatten) := by
  intro all
  have keeps := all Dict.letterCodec 0 ["x"]
    [[some (.namedNode ['a'])], [some (.namedNode ['b'])]] [] (Dict.initial false 0)
    (filled_initial _ _ _ _) (fun e he => nomatch he) (by decide) ?_
  · have same := keeps.apart (.namedNode ['a'], 0) (by decide) (.namedNode ['b'], 0)
      (by decide)
    exact absurd (same.mp rfl) (by decide)
  · intro t ht
    obtain same | ht := List.mem_cons.mp ht
    · cases same
      exact wellFormed_letter (by decide)
    · cases List.mem_singleton.mp ht
      exact wellFormed_letter (by decide)

end PgRipple.Sparql
