import PgRipple.Dictionary.Batch
import PgRipple.Transfer.Encoding

/-!
# Terms of remote results

A term of a SPARQL results document is pasted into N-Triples syntax without escaping and
then read again: a literal is cut at its last `"@`, and else at its last `"^^<`. A language
tag and a datatype contain no quote, so they are found where they were written. A value that
contains such a sequence, or starts with the rest of it, is cut instead. The id is then that
of another term, or the cut lies before the first character and the program panics.
-/

namespace PgRipple.Federation

open Dictionary Split

/-- JSON values. -/
inductive Json where
  | null
  | bool (b : Bool)
  | number (text : Text)
  | string (s : Text)
  | array (items : List Json)
  | object (fields : List (Text × Json))

/-- `Value::get` with a string. Of fields with the same name the last one counts. -/
def Json.get (name : Text) : Json → Option Json
  | .object fields => (fields.reverse.find? fun f => f.1 = name).map Prod.snd
  | _ => none

def Json.asStr : Json → Option Text
  | .string s => some s
  | _ => none

def xsdString : Text := "http://www.w3.org/2001/XMLSchema#string".toList

/-- `sparql_result_term_to_ntriples`. -/
def sparqlResultTermToNtriples (term : Json) : Option Text := do
  let ty ← (← term.get "type".toList).asStr
  let value ← (← term.get "value".toList).asStr
  if ty = "uri".toList then some ('<' :: value ++ ['>'])
  else if ty = "bnode".toList then some ("_:".toList ++ value)
  else if ty = "literal".toList then
    match (term.get "xml:lang".toList).bind Json.asStr with
    | some lang => some ('"' :: value ++ "\"@".toList ++ lang)
    | none =>
      match (term.get "datatype".toList).bind Json.asStr with
      | some dt =>
        if dt = xsdString then some ('"' :: value ++ ['"'])
        else some ('"' :: value ++ "\"^^<".toList ++ dt ++ ['>'])
      | none => some ('"' :: value ++ ['"'])
  else none

/-- `&term[1..at]` for a cut `front` of the term that ends at `at`; `none` is a panic. -/
def afterQuote (front : Text) : Option Text := if front = [] then none else some (front.drop 1)

/-- `split_lang_literal`; `none` is a panic. -/
def splitLangLiteral (term : Text) : Option (Option (Text × Text)) :=
  match rsplitOnce "\"@".toList term with
  | none => some none
  | some (front, lang) =>
    (afterQuote front).map fun lit => if lang = [] then none else some (lit, lang)

/-- `strip_suffix`. -/
def stripSuffix (c : Char) (s : Text) : Option Text :=
  if s.getLast? = some c then some s.dropLast else none

/-- `strip_prefix`. -/
def stripPrefix (c : Char) : Text → Option Text
  | [] => none
  | a :: s => if a = c then some s else none

/-- `split_typed_literal`; `none` is a panic. -/
def splitTypedLiteral (term : Text) : Option (Option (Text × Text)) :=
  match rsplitOnce "\"^^<".toList term with
  | none => some none
  | some (front, rest) =>
    (afterQuote front).map fun lit =>
      (stripSuffix '>' rest).bind fun dt => if dt = [] then none else some (lit, dt)

/-- `encode_ntriples_term`; `none` is a panic. -/
def encodeNtriplesTerm (codec : Codec) (session : Session) (term : Text) (d : Dict) :
    Option (Int × Dict) :=
  match (stripPrefix '<' term).bind (stripSuffix '>') with
  | some iri => some (d.encode codec session iri .iri)
  | none =>
    match "_:".toList.isPrefixOf? term with
    | some bnode => some (d.encode codec session bnode .blank)
    | none =>
      if term.head? = some '"' then
        (splitLangLiteral term).bind fun
          | some (lit, lang) => some (d.encodeLangLiteral codec session lit lang)
          | none =>
            (splitTypedLiteral term).map fun
              | some (lit, dt) => d.encodeTypedLiteral codec session lit dt
              | none =>
                let plain := ((stripPrefix '"' term).bind (stripSuffix '"')).getD term
                d.encode codec session plain .literal
      else some (d.encode codec session term .literal)

/-- The IRI of a datatype. -/
structure DatatypeIri where
  text : Text
  nonempty : text ≠ []
  chars : ∀ c ∈ text, c ≠ '<' ∧ c ≠ '>' ∧ c ≠ '"'

/-- A language tag that is not empty. -/
structure LanguageTag extends LangTag where
  nonempty : text ≠ []

inductive RemoteTerm where
  | uri (iri : Text)
  | bnode (label : Text)
  | plain (value : Text)
  | lang (value : Text) (tag : LanguageTag)
  | typed (value : Text) (datatype : DatatypeIri)

namespace RemoteTerm

/-- The form of a term in a results document. -/
def toJson : RemoteTerm → Json
  | .uri iri => .object [("type".toList, .string "uri".toList), ("value".toList, .string iri)]
  | .bnode label =>
    .object [("type".toList, .string "bnode".toList), ("value".toList, .string label)]
  | .plain value =>
    .object [("type".toList, .string "literal".toList), ("value".toList, .string value)]
  | .lang value tag =>
    .object [("type".toList, .string "literal".toList), ("value".toList, .string value),
      ("xml:lang".toList, .string tag.text)]
  | .typed value datatype =>
    .object [("type".toList, .string "literal".toList), ("value".toList, .string value),
      ("datatype".toList, .string datatype.text)]

/-- The term as local data has it; `xsd:string` is the datatype of plain literals. -/
def toRdf : RemoteTerm → RdfTerm
  | .uri iri => .plain iri .iri
  | .bnode label => .plain label .blank
  | .plain value => .plain value .literal
  | .lang value tag => .lang value tag.text
  | .typed value datatype =>
    if datatype.text = xsdString then .plain value .literal else .typed value datatype.text

/-- The value is cut at a `"@` of its own, or at one that it forms with the opening quote. -/
def HasAt (value : Text) : Prop := "\"@".toList <:+: '"' :: value

/-- The last `"^^<` begins with the opening quote. -/
def StartsWithHat (value : Text) : Prop :=
  "^^<".toList <+: value ∧ ¬ "\"^^<".toList <:+: value

instance (value : Text) : Decidable (HasAt value) := inferInstanceAs (Decidable (_ <:+: _))

instance (value : Text) : Decidable (StartsWithHat value) :=
  inferInstanceAs (Decidable (_ <+: _ ∧ ¬ _ <:+: _))

/-- The term is read as what it was. -/
def Readable : RemoteTerm → Prop
  | .uri _ | .bnode _ | .lang _ _ => True
  | .plain value => ¬ HasAt value ∧ ¬ StartsWithHat value
  | .typed value datatype =>
    ¬ HasAt value ∧ (datatype.text = xsdString → ¬ StartsWithHat value)

end RemoteTerm

/-- A remote term, encoded. -/
def encodeRemote (codec : Codec) (session : Session) (term : Json) (d : Dict) :
    Option (Int × Dict) :=
  (sparqlResultTermToNtriples term).bind fun text => encodeNtriplesTerm codec session text d

/-- The remote and the local term get one id, whichever is encoded first. -/
structure JoinsLocal (codec : Codec) (session session' : Session) (d : Dict) (t : RemoteTerm) :
    Prop where
  remoteFirst : ∃ id d', encodeRemote codec session t.toJson d = some (id, d') ∧
    (d'.encodeRdfTerm codec session' t.toRdf).1 = id
  localFirst : ∃ d', encodeRemote codec session t.toJson
      (d.encodeRdfTerm codec session' t.toRdf).2 =
    some ((d.encodeRdfTerm codec session' t.toRdf).1, d')

/-- The text that is encoded. -/
def RemoteTerm.ntriples : RemoteTerm → Text
  | .uri iri => '<' :: iri ++ ['>']
  | .bnode label => "_:".toList ++ label
  | .plain value => '"' :: value ++ ['"']
  | .lang value tag => '"' :: value ++ "\"@".toList ++ tag.text
  | .typed value datatype =>
    if datatype.text = xsdString then '"' :: value ++ ['"']
    else '"' :: value ++ "\"^^<".toList ++ datatype.text ++ ['>']

theorem sparqlResultTermToNtriples_toJson (t : RemoteTerm) :
    sparqlResultTermToNtriples t.toJson = some t.ntriples := by
  cases t with
  | typed value datatype =>
    rw [RemoteTerm.ntriples, apply_ite some]
    rfl
  | _ => rfl

theorem stripSuffix_concat (c : Char) (s : Text) : stripSuffix c (s ++ [c]) = some s := by
  simp [stripSuffix]

section Cut

variable {value rest lang : Text}

/-- What follows the value has no quote, so a cut lies where the value has one. -/
theorem has_at_iff (quoteFree : '"' ∉ rest) (other : rest.head? ≠ some '@') :
    "\"@".toList <:+: '"' :: value ++ '"' :: rest ↔ RemoteTerm.HasAt value := by
  show ['"', '@'] <:+: ('"' :: value) ++ '"' :: rest ↔ ['"', '@'] <:+: '"' :: value
  rw [infix_append_mark_iff (by decide) quoteFree]
  refine or_iff_left fun start => other ?_
  obtain ⟨r, rfl⟩ := start
  rfl

theorem splitLangLiteral_lang (quoteFree : '"' ∉ lang) (nonempty : lang ≠ []) :
    splitLangLiteral ('"' :: value ++ "\"@".toList ++ lang) = some (some (value, lang)) := by
  have free : ¬ ['"', '@'] <:+: ['@'] ++ lang := by
    intro h
    have quote : '"' ∈ ['@'] ++ lang := h.subset List.mem_cons_self
    simp [quoteFree] at quote
  have cut : rsplitOnce "\"@".toList ('"' :: value ++ "\"@".toList ++ lang) =
      some ('"' :: value, lang) := by
    simpa using rsplitOnce_last (a := '"' :: value) free
  rw [splitLangLiteral, cut]
  simp [afterQuote, nonempty]

/-- Without a cut of its own the literal has no language. -/
theorem splitLangLiteral_eq_none (quoteFree : '"' ∉ rest) (other : rest.head? ≠ some '@')
    (readable : ¬ RemoteTerm.HasAt value) :
    splitLangLiteral ('"' :: value ++ '"' :: rest) = some none := by
  have none' := rsplitOnce_eq_none_iff (by decide) |>.mpr
    ((@has_at_iff value rest quoteFree other).not.mpr readable)
  rw [splitLangLiteral, none']

/-- With one it is taken for another literal of the same text, or there is a panic. -/
theorem splitLangLiteral_of_hasAt (quoteFree : '"' ∉ rest) (other : rest.head? ≠ some '@')
    (last : rest.getLast? ≠ some '@') (hasAt : RemoteTerm.HasAt value) :
    splitLangLiteral ('"' :: value ++ '"' :: rest) = none ∨ ∃ lit lang,
      splitLangLiteral ('"' :: value ++ '"' :: rest) = some (some (lit, lang)) ∧
        '"' :: lit ++ "\"@".toList ++ lang = '"' :: value ++ '"' :: rest := by
  cases cut : rsplitOnce "\"@".toList ('"' :: value ++ '"' :: rest) with
  | none =>
    exact absurd ((has_at_iff quoteFree other).mpr hasAt)
      ((rsplitOnce_eq_none_iff (by decide)).mp cut)
  | some parts =>
    obtain ⟨front, lang⟩ := parts
    have whole := eq_of_rsplitOnce cut
    have nonempty : lang ≠ [] := by
      rintro rfl
      have ends : ('"' :: value ++ '"' :: rest).getLast? = some '@' := by
        rw [whole]
        simp
      rw [List.getLast?_append, List.getLast?_cons, Option.some_or, Option.some.injEq] at ends
      cases final : rest.getLast? with
      | none =>
        rw [final] at ends
        exact absurd ends (by decide)
      | some c =>
        rw [final] at ends
        exact last (final.trans (congrArg some ends))
    cases front with
    | nil =>
      refine .inl ?_
      rw [splitLangLiteral, cut]
      rfl
    | cons c lit =>
      refine .inr ⟨lit, lang, ?_, ?_⟩
      · rw [splitLangLiteral, cut]
        simp [afterQuote, nonempty]
      rw [whole]
      have first : c = '"' := by simpa using (congrArg List.head? whole).symm
      rw [first]

theorem splitTypedLiteral_typed {dt : Text} (quoteFree : '"' ∉ dt) (nonempty : dt ≠ []) :
    splitTypedLiteral ('"' :: value ++ "\"^^<".toList ++ dt ++ ['>']) =
      some (some (value, dt)) := by
  have free : ¬ ['"', '^', '^', '<'] <:+: ['^', '^', '<'] ++ (dt ++ ['>']) := by
    intro h
    have quote : '"' ∈ ['^', '^', '<'] ++ (dt ++ ['>']) := h.subset List.mem_cons_self
    simp [quoteFree] at quote
  have cut : rsplitOnce "\"^^<".toList ('"' :: value ++ "\"^^<".toList ++ dt ++ ['>']) =
      some ('"' :: value, dt ++ ['>']) := by
    simpa using rsplitOnce_last (a := '"' :: value) free
  rw [splitTypedLiteral, cut]
  simp [afterQuote, stripSuffix_concat, nonempty]

/-- Whether the value has a cut of its own, and whether it begins with one. -/
theorem startsWithHat_iff : RemoteTerm.StartsWithHat value ↔
    rsplitOnce "\"^^<".toList (value ++ ['"']) = none ∧ "^^<".toList <+: value ++ ['"'] := by
  rw [RemoteTerm.StartsWithHat, rsplitOnce_eq_none_iff (by decide), and_comm]
  refine and_congr ?_ (prefix_append_iff '"' (by decide) (.inr rfl)).symm
  show ¬ ['"', '^', '^', '<'] <:+: value ↔ ¬ ['"', '^', '^', '<'] <:+: value ++ ['"']
  rw [infix_append_mark_iff (by decide) List.not_mem_nil]
  simp

/-- A plain literal has no datatype, whatever its value. -/
theorem splitTypedLiteral_plain (readable : ¬ RemoteTerm.StartsWithHat value) :
    splitTypedLiteral ('"' :: value ++ ['"']) = some none := by
  cases cut : rsplitOnce "\"^^<".toList ('"' :: value ++ ['"']) with
  | none => rw [splitTypedLiteral, cut]
  | some parts =>
    obtain ⟨front, rest⟩ := parts
    have whole := eq_of_rsplitOnce cut
    have ends : rest.getLast? ≠ some '>' := by
      intro last
      have ends := congrArg List.getLast? whole
      rw [List.getLast?_append, List.getLast?_append, last] at ends
      simp at ends
    have front_ne : front ≠ [] := by
      rintro rfl
      rw [startsWithHat_iff] at readable
      refine readable ⟨?_, rest, (List.cons.inj whole).2.symm⟩
      rw [List.cons_append, rsplitOnce] at cut
      split at cut
      · cases cut
      · assumption
    rw [splitTypedLiteral, cut]
    simp [afterQuote, front_ne, stripSuffix, ends]

/-- A cut before the value is a panic. -/
theorem splitTypedLiteral_of_startsWithHat (panics : RemoteTerm.StartsWithHat value) :
    splitTypedLiteral ('"' :: value ++ ['"']) = none := by
  obtain ⟨later, rest, start⟩ := startsWithHat_iff.mp panics
  have here : "\"^^<".toList.isPrefixOf? ('"' :: (value ++ ['"'])) = some rest := by
    rw [isPrefixOf?_eq_some_iff, ← start]
    rfl
  have cut : rsplitOnce "\"^^<".toList ('"' :: value ++ ['"']) = some ([], rest) := by
    rw [List.cons_append, rsplitOnce, later, here, Option.map_some]
  rw [splitTypedLiteral, cut]
  rfl

end Cut

section Encoding

variable {codec : Codec} {session session' : Session} {d : Dict} {value : Text}

theorem encodeNtriplesTerm_quote (s : Text) (d : Dict) :
    encodeNtriplesTerm codec session ('"' :: s) d =
      (splitLangLiteral ('"' :: s)).bind fun
        | some (lit, lang) => some (d.encodeLangLiteral codec session lit lang)
        | none => (splitTypedLiteral ('"' :: s)).map fun
          | some (lit, dt) => d.encodeTypedLiteral codec session lit dt
          | none => d.encode codec session
            (((stripPrefix '"' ('"' :: s)).bind (stripSuffix '"')).getD ('"' :: s)) .literal := rfl

theorem encodeNtriplesTerm_plain (hasAt : ¬ RemoteTerm.HasAt value)
    (hat : ¬ RemoteTerm.StartsWithHat value) (d : Dict) :
    encodeNtriplesTerm codec session ('"' :: value ++ ['"']) d =
      some (d.encode codec session value .literal) := by
  have lang : splitLangLiteral ('"' :: (value ++ ['"'])) = some none :=
    @splitLangLiteral_eq_none value [] (by decide) (by decide) hasAt
  have typed : splitTypedLiteral ('"' :: (value ++ ['"'])) = some none :=
    splitTypedLiteral_plain hat
  rw [List.cons_append, encodeNtriplesTerm_quote, lang, Option.bind_some]
  simp [typed, stripPrefix, stripSuffix_concat]

/-- A readable term is encoded as the local one is. -/
theorem encodeNtriplesTerm_readable {t : RemoteTerm} (readable : t.Readable) (d : Dict) :
    encodeNtriplesTerm codec session t.ntriples d =
      some (d.encodeRdfTerm codec session t.toRdf) := by
  cases t with
  | uri iri =>
    simp [encodeNtriplesTerm, RemoteTerm.ntriples, RemoteTerm.toRdf, Dict.encodeRdfTerm,
      stripPrefix, stripSuffix_concat]
  | bnode label =>
    simp [encodeNtriplesTerm, RemoteTerm.ntriples, RemoteTerm.toRdf, Dict.encodeRdfTerm,
      stripPrefix, List.isPrefixOf?]
  | plain value => exact encodeNtriplesTerm_plain readable.1 readable.2 d
  | lang value tag =>
    have quoteFree : '"' ∉ tag.text := by
      intro quote
      have := tag.chars _ quote
      revert this
      decide
    have split := @splitLangLiteral_lang value _ quoteFree tag.nonempty
    rw [RemoteTerm.ntriples]
    rw [List.append_assoc, List.cons_append] at split ⊢
    rw [encodeNtriplesTerm_quote, split]
    rfl
  | typed value datatype =>
    by_cases string : datatype.text = xsdString
    · rw [RemoteTerm.ntriples, if_pos string, RemoteTerm.toRdf, if_pos string]
      exact encodeNtriplesTerm_plain readable.1 (readable.2 string) d
    · have quoteFree : '"' ∉ datatype.text := fun quote => (datatype.chars _ quote).2.2 rfl
      have typed := @splitTypedLiteral_typed value _ quoteFree datatype.nonempty
      have text : '"' :: value ++ "\"^^<".toList ++ datatype.text ++ ['>'] =
          '"' :: (value ++ '"' :: (['^', '^', '<'] ++ datatype.text ++ ['>'])) := by simp
      have lang : splitLangLiteral
          ('"' :: (value ++ '"' :: (['^', '^', '<'] ++ datatype.text ++ ['>']))) = some none :=
        splitLangLiteral_eq_none (by simp [quoteFree]) (by simp) readable.1
      rw [text] at typed
      rw [RemoteTerm.ntriples, if_neg string, RemoteTerm.toRdf, if_neg string, text,
        encodeNtriplesTerm_quote, lang, Option.bind_some]
      simp only [typed]
      rfl

/-- A panic, or the id of a language-tagged literal of the same text. -/
def Misread (codec : Codec) (session : Session) (text : Text) (d : Dict) : Prop :=
  encodeNtriplesTerm codec session text d = none ∨ ∃ lit lang,
    encodeNtriplesTerm codec session text d = some (d.encodeLangLiteral codec session lit lang) ∧
      '"' :: lit ++ "\"@".toList ++ lang = text

theorem misread_of_hasAt {rest : Text} (quoteFree : '"' ∉ rest) (other : rest.head? ≠ some '@')
    (last : rest.getLast? ≠ some '@') (hasAt : RemoteTerm.HasAt value) (d : Dict) :
    Misread codec session ('"' :: value ++ '"' :: rest) d := by
  rw [Misread, List.cons_append, encodeNtriplesTerm_quote]
  obtain panics | ⟨lit, lang, cut, same⟩ := splitLangLiteral_of_hasAt quoteFree other last hasAt
  · rw [List.cons_append] at panics
    exact .inl (by rw [panics, Option.bind_none])
  · rw [List.cons_append] at cut same
    exact .inr ⟨lit, lang, by rw [cut, Option.bind_some], same⟩

theorem misread_plain (unreadable : RemoteTerm.HasAt value ∨ RemoteTerm.StartsWithHat value)
    (d : Dict) : Misread codec session ('"' :: value ++ ['"']) d := by
  by_cases hasAt : RemoteTerm.HasAt value
  · exact misread_of_hasAt List.not_mem_nil (by decide) (by decide) hasAt d
  · have lang : splitLangLiteral ('"' :: (value ++ ['"'])) = some none :=
      @splitLangLiteral_eq_none value [] (by decide) (by decide) hasAt
    have typed : splitTypedLiteral ('"' :: (value ++ ['"'])) = none :=
      splitTypedLiteral_of_startsWithHat (unreadable.resolve_left hasAt)
    rw [Misread, List.cons_append, encodeNtriplesTerm_quote, lang, Option.bind_some, typed]
    exact .inl rfl

theorem misread_of_unreadable {t : RemoteTerm} (unreadable : ¬ t.Readable) (d : Dict) :
    Misread codec session t.ntriples d := by
  cases t with
  | uri iri => exact absurd trivial unreadable
  | bnode label => exact absurd trivial unreadable
  | lang value tag => exact absurd trivial unreadable
  | plain value =>
    rw [RemoteTerm.Readable, not_and_or, not_not, not_not] at unreadable
    exact misread_plain unreadable d
  | typed value datatype =>
    rw [RemoteTerm.Readable, not_and_or, not_not, Classical.not_imp, not_not] at unreadable
    rw [RemoteTerm.ntriples]
    split
    · exact misread_plain (unreadable.imp_right And.right) d
    · rename_i other
      have hasAt := unreadable.resolve_right fun both => other both.1
      have quoteFree : '"' ∉ datatype.text := fun quote => (datatype.chars _ quote).2.2 rfl
      have text : '"' :: value ++ "\"^^<".toList ++ datatype.text ++ ['>'] =
          '"' :: value ++ '"' :: (['^', '^', '<'] ++ datatype.text ++ ['>']) := by simp
      rw [text]
      refine misread_of_hasAt ?_ (by simp) ?_ hasAt d
      · simp [quoteFree]
      · rw [List.getLast?_concat]
        decide

end Encoding

/-- What is hashed for a term that is not inlined. -/
def RemoteTerm.key (codec : Codec) : RemoteTerm → Text × Kind
  | .uri iri => (codec.normalize iri, .iri)
  | .bnode label => (codec.normalize label, .blank)
  | .plain value => (value, .literal)
  | .lang value tag => ('"' :: value ++ "\"@".toList ++ tag.text, .langLiteral)
  | .typed value datatype =>
    if datatype.text = xsdString then (value, .literal)
    else (writeTyped value datatype.text, .typedLiteral)

/-- Different texts have different hashes. -/
def Apart (codec : Codec) (k k' : Text × Kind) : Prop :=
  codec.termHash k.1 k.2 = codec.termHash k'.1 k'.2 → k = k'

/-- The id of a term: inline, or that of the row with its hash. -/
def RemoteTerm.HasId (codec : Codec) (d : Dict) (t : RemoteTerm) (id : Int) : Prop :=
  t.toRdf.Inlined codec id ∨ (∀ n, ¬ t.toRdf.Inlined codec n) ∧
    d.Stored (codec.termHash (t.key codec).1 (t.key codec).2) id

section Ids

variable {codec : Codec} {session session' : Session} {d d' : Dict} {t : RemoteTerm} {id id' : Int}

theorem RemoteTerm.HasId.mono (extended : Dict.Extends d d') (h : t.HasId codec d id) :
    t.HasId codec d' id :=
  h.imp_right fun row => ⟨row.1, extended.stored row.2⟩

theorem inlined_unique {t : RdfTerm} (h : t.Inlined codec id) (h' : t.Inlined codec id') :
    id = id' := by
  cases t with
  | typed value datatype => exact Option.some.inj (h.symm.trans h')
  | plain term kind => cases h
  | lang value lang => cases h
  | quoted s p o => cases h

theorem RemoteTerm.HasId.unique (h : t.HasId codec d id) (h' : t.HasId codec d id') : id = id' := by
  obtain inlined | ⟨none', row⟩ := h
  · obtain inlined' | ⟨none', -⟩ := h'
    · exact inlined_unique inlined inlined'
    · exact absurd inlined (none' _)
  · obtain inlined' | ⟨-, row'⟩ := h'
    · exact absurd inlined' (none' _)
    · exact row.id_unique row'

theorem encode_toRdf (sound : d.Sound) (session : Session) (t : RemoteTerm) :
    Dict.Extends d (d.encodeRdfTerm codec session t.toRdf).2 ∧
      t.HasId codec (d.encodeRdfTerm codec session t.toRdf).2
        (d.encodeRdfTerm codec session t.toRdf).1 := by
  have plain (term : Text) (kind : Kind) := sound.encode codec session term kind
  cases t with
  | uri iri =>
    obtain ⟨extended, row⟩ := plain iri .iri
    exact ⟨extended, .inr ⟨fun _ => id, row⟩⟩
  | bnode label =>
    obtain ⟨extended, row⟩ := plain label .blank
    exact ⟨extended, .inr ⟨fun _ => id, row⟩⟩
  | plain value =>
    obtain ⟨extended, row⟩ := plain value .literal
    exact ⟨extended, .inr ⟨fun _ => id, row⟩⟩
  | lang value tag =>
    obtain ⟨extended, row⟩ := sound.encodeTiers session
      (codec.termHash ('"' :: value ++ "\"@".toList ++ tag.text) .langLiteral)
      ⟨value, .langLiteral, none, some tag.text, none⟩
    exact ⟨extended, .inr ⟨fun _ => id, row⟩⟩
  | typed value datatype =>
    rw [RemoteTerm.HasId, RemoteTerm.key, RemoteTerm.toRdf]
    split
    · obtain ⟨extended, row⟩ := plain value .literal
      exact ⟨extended, .inr ⟨fun _ => id, row⟩⟩
    · rw [Dict.encodeRdfTerm, Dict.encodeTypedLiteral]
      cases inlined : tryEncodeInline codec.chrono value datatype.text with
      | some n => exact ⟨.refl sound, .inl inlined⟩
      | none =>
        obtain ⟨extended, row⟩ := sound.encodeTiers session
          (codec.termHash (writeTyped value datatype.text) .typedLiteral)
          ⟨value, .typedLiteral, some datatype.text, none, none⟩
        have none' (n : Int) : tryEncodeInline codec.chrono value datatype.text ≠ some n := by
          simp [inlined]
        exact ⟨extended, .inr ⟨none', row⟩⟩

/-- A term that was encoded keeps its id. -/
theorem encode_again (sound : d.Sound) (session session' : Session) (t : RemoteTerm) :
    ((d.encodeRdfTerm codec session t.toRdf).2.encodeRdfTerm codec session' t.toRdf).1 =
      (d.encodeRdfTerm codec session t.toRdf).1 := by
  obtain ⟨extended, here⟩ := @encode_toRdf codec _ sound session t
  obtain ⟨extended', again⟩ := @encode_toRdf codec _ extended.sound session' t
  exact again.unique (here.mono extended')

theorem joinsLocal_of_readable (sound : d.Sound) (readable : t.Readable) :
    JoinsLocal codec session session' d t := by
  have remote (d : Dict) : encodeRemote codec session t.toJson d =
      some (d.encodeRdfTerm codec session t.toRdf) := by
    rw [encodeRemote, sparqlResultTermToNtriples_toJson, Option.bind_some,
      encodeNtriplesTerm_readable readable]
  refine ⟨⟨_, _, remote d, encode_again sound session session' t⟩,
    ((d.encodeRdfTerm codec session' t.toRdf).2.encodeRdfTerm codec session t.toRdf).2, ?_⟩
  rw [remote, ← encode_again sound session' session t]

theorem inlined_neg {t : RdfTerm} (h : t.Inlined codec id) : id < 0 := by
  cases t with
  | typed value datatype =>
    have inline := Transfer.isInline_of_tryEncodeInline h
    rwa [isInline, decide_eq_true_iff] at inline
  | plain term kind => cases h
  | lang value lang => cases h
  | quoted s p o => cases h

theorem key_ne_of_unreadable (unreadable : ¬ t.Readable) :
    (t.ntriples, Kind.langLiteral) ≠ t.key codec := by
  intro same
  have kind : Kind.langLiteral = (t.key codec).2 := congrArg Prod.snd same
  cases t with
  | uri iri => cases kind
  | bnode label => cases kind
  | plain value => cases kind
  | lang value tag => exact unreadable trivial
  | typed value datatype =>
    rw [RemoteTerm.key] at kind
    split at kind <;> cases kind

/-- A literal that is misread has an id of its own. -/
theorem not_joinsLocal_of_unreadable (sound : d.Sound) (numbered : d.Numbered)
    (apart : Apart codec (t.ntriples, .langLiteral) (t.key codec)) (unreadable : ¬ t.Readable) :
    ¬ JoinsLocal codec session session' d t := by
  rintro ⟨⟨id, d', encoded, same⟩, -⟩
  rw [encodeRemote, sparqlResultTermToNtriples_toJson, Option.bind_some] at encoded
  rcases @misread_of_unreadable codec session _ unreadable d with
    panics | ⟨lit, lang, remote, text⟩
  · rw [panics] at encoded
    cases encoded
  · rw [remote, Option.some.injEq] at encoded
    obtain ⟨extended, row⟩ := sound.encodeTiers session
      (codec.termHash ('"' :: lit ++ "\"@".toList ++ lang) .langLiteral)
      ⟨lit, .langLiteral, none, some lang, none⟩
    have numbered' := numbered.encodeTiers session
      (codec.termHash ('"' :: lit ++ "\"@".toList ++ lang) .langLiteral)
      ⟨lit, .langLiteral, none, some lang, none⟩
    rw [Dict.encodeLangLiteral] at encoded
    rw [encoded] at extended row numbered'
    rw [text] at row
    obtain ⟨extended', own⟩ := @encode_toRdf codec _ extended.sound session' t
    rw [same] at own
    have numbered'' := numbered'.encodeRdfTerm codec session' t.toRdf
    obtain inlined | ⟨-, row'⟩ := own
    · obtain ⟨r, hr, -, named⟩ := extended'.stored row
      have positive := (numbered''.below r hr).1
      have negative := inlined_neg inlined
      have bounds : r.id = id := named
      omega
    · exact key_ne_of_unreadable unreadable
        (apart (numbered''.hash_unique (extended'.stored row) row'))

end Ids

/-- The exact condition under which remote terms join with local ones. -/
theorem joinsLocal_iff {codec : Codec} {session session' : Session} {d : Dict} {t : RemoteTerm}
    (sound : d.Sound) (numbered : d.Numbered)
    (apart : Apart codec (t.ntriples, .langLiteral) (t.key codec)) :
    JoinsLocal codec session session' d t ↔ t.Readable := by
  constructor
  · intro joins
    by_contra unreadable
    exact not_joinsLocal_of_unreadable sound numbered apart unreadable joins
  · exact joinsLocal_of_readable sound

theorem joinsLocal_plain :
    JoinsLocal Dict.letterCodec 0 1 (Dict.initial true 5) (.plain "a".toList) := by
  have apart : Apart Dict.letterCodec ((RemoteTerm.plain "a".toList).ntriples, .langLiteral)
      ((RemoteTerm.plain "a".toList).key Dict.letterCodec) := fun same => absurd same (by decide)
  exact (joinsLocal_iff (Dict.sound_initial true 5) (Dict.numbered_initial true 5) apart).mpr
    ⟨by decide, by decide⟩

/-- The value `a"@b` becomes the value `a` with the language tag `b"`. -/
theorem not_joinsLocal :
    ¬ JoinsLocal Dict.letterCodec 0 1 (Dict.initial true 5) (.plain "a\"@b".toList) := by
  refine not_joinsLocal_of_unreadable (Dict.sound_initial true 5) (Dict.numbered_initial true 5)
    (fun same => absurd same (by decide)) ?_
  rintro ⟨readable, -⟩
  exact readable (by decide)

end PgRipple.Federation
