import PgRipple.Transfer.Ntriples

/-!
# Terms and graphs

The RDF term that an id stands for, read off the dictionary rows as the encoders write
them. Blank nodes are named by their ids, and a plain literal is one of datatype
`xsd:string`. Two graphs are isomorphic if renaming blank nodes turns one into the other.
-/

namespace PgRipple.Transfer

open Storage Dictionary

/-- An RDF term. -/
inductive Node where
  | iri (text : Text)
  | blank (id : Int)
  | literal (value datatype : Text)
  | langLiteral (value lang : Text)
  | quoted (s p o : Node)
  deriving DecidableEq

/-- An IRI has no angle brackets and no spaces. -/
def IriText (t : Text) : Prop := ∀ c ∈ t, c ≠ '<' ∧ c ≠ '>' ∧ isWhitespace c = false

theorem iriText_of_all {t : Text}
    (all : (t.all fun c => c ≠ '<' && c ≠ '>' && isWhitespace c = false) = true) : IriText t := by
  intro c hc
  simpa [and_assoc] using List.all_eq_true.mp all c hc

namespace Node

/-- What the grammar requires of IRIs and language tags. -/
def WellFormed : Node → Prop
  | .iri text => IriText text
  | .blank _ => True
  | .literal _ datatype => IriText datatype
  | .langLiteral _ lang => ∀ c ∈ lang, c.isAlphanum ∨ c = '-'
  | .quoted s p o => s.WellFormed ∧ p.WellFormed ∧ o.WellFormed

/-- No literal has a backslash in front of `n`, `r` or `t`. -/
def NoLookalike : Node → Prop
  | .literal value _ | .langLiteral value _ => Dictionary.NoLookalike value
  | .quoted s p o => s.NoLookalike ∧ p.NoLookalike ∧ o.NoLookalike
  | _ => True

def blanks : Node → List Int
  | .blank id => [id]
  | .quoted s p o => s.blanks ++ p.blanks ++ o.blanks
  | _ => []

def renameBlanks (f : Int → Int) : Node → Node
  | .blank id => .blank (f id)
  | .quoted s p o => .quoted (s.renameBlanks f) (p.renameBlanks f) (o.renameBlanks f)
  | n => n

end Node

abbrev Graph := Set (Node × Node × Node)

def blanksOf (t : Node × Node × Node) : List Int := t.1.blanks ++ t.2.1.blanks ++ t.2.2.blanks

def renameTriple (f : Int → Int) (t : Node × Node × Node) : Node × Node × Node :=
  (t.1.renameBlanks f, t.2.1.renameBlanks f, t.2.2.renameBlanks f)

/-- A bijection on blank nodes turns one graph into the other. -/
def Isomorphic (graph graph' : Graph) : Prop :=
  ∃ f : Int → Int, Set.InjOn f { b | ∃ t ∈ graph, b ∈ blanksOf t } ∧
    graph' = renameTriple f '' graph

/-- The value and the datatype that `format_inline` prints. -/
def inlineParts (chrono : Chrono) (id : Int) : Text × Text :=
  let type := unpackType id
  if type = typeInteger then ((toString (decodeSigned id)).toList, xsd "integer")
  else if type = typeBoolean then
    (if unpackValueBits id ≠ 0 then "true".toList else "false".toList, xsd "boolean")
  else if type = typeDatetime then (chrono.formatMicros (decodeSigned id), xsd "dateTime")
  else if type = typeDate then (chrono.formatDays (decodeSigned id), xsd "date")
  else
    ("inline:".toList ++ (toString type).toList ++ ":".toList ++
      (toString (decodeSigned id)).toList, "urn:pg_ripple:inline".toList)

theorem formatInline_eq (chrono : Chrono) (id : Int) :
    formatInline chrono id = writeTyped (inlineParts chrono id).1 (inlineParts chrono id).2 := by
  simp only [formatInline, inlineParts]
  split
  · rfl
  split
  · rfl
  split
  · rfl
  split <;> rfl

/-- What is printed of an inlined literal. -/
inductive Prints (chrono : Chrono) (id : Int) : Prop where
  | integer (v : Int) (packed : packSigned typeInteger v = some id)
      (parts : inlineParts chrono id = ((toString v).toList, xsd "integer"))
  | boolean (b : Bool) (packed : pack typeBoolean (if b then 1 else 0) = id)
      (parts : inlineParts chrono id =
        (if b then "true".toList else "false".toList, xsd "boolean"))
  | dateTime (m : Int) (packed : packSigned typeDatetime m = some id)
      (parts : inlineParts chrono id = (chrono.formatMicros m, xsd "dateTime"))
  | date (n : Int) (read : ∃ s, chrono.parseDate s = some n)
      (packed : packSigned typeDate n = some id)
      (parts : inlineParts chrono id = (chrono.formatDays n, xsd "date"))

section Inline

variable {chrono : Chrono} {l : TypedLiteral} {id id' : Int}

theorem prints_of_inlined (h : Inlined chrono l id) : Prints chrono id := by
  cases h with
  | integer t v datatype parsed packed =>
    obtain ⟨-, type, decoded, -⟩ := packSigned_eq_some (by decide) packed
    exact .integer v packed (by simp only [inlineParts, type, if_true, decoded])
  | boolean b datatype parsed packed =>
    obtain ⟨-, type, bits⟩ := pack_boolean b
    rw [packed] at type bits
    have notInteger : unpackType id ≠ typeInteger := by
      rw [type]
      decide
    refine .boolean b packed ?_
    simp only [inlineParts, if_neg notInteger, if_pos type, if_congr bits rfl rfl]
  | dateTime instant datatype parsed packed =>
    obtain ⟨-, type, decoded, -⟩ := packSigned_eq_some (by decide) packed
    refine .dateTime _ packed ?_
    simp [inlineParts, type, decoded, typeDatetime, typeBoolean, typeInteger]
  | date n datatype parsed packed =>
    obtain ⟨-, type, decoded, -⟩ := packSigned_eq_some (by decide) packed
    refine .date n ⟨_, parsed⟩ packed ?_
    simp [inlineParts, type, decoded, typeDate, typeDatetime, typeBoolean, typeInteger]

namespace Prints

variable (h : Prints chrono id)

include h in
theorem plain : ∀ c ∈ (inlineParts chrono id).1, escapeCode c = none := by
  intro c hc
  cases h with
  | integer v packed parts =>
    rw [parts] at hc
    exact escapeCode_plain (mem_toString_int hc)
  | boolean b packed parts =>
    rw [parts] at hc
    have letters : (if b then "true".toList else "false".toList).all Char.isAlphanum = true := by
      cases b <;> decide
    exact escapeCode_plain (.inl (List.all_eq_true.mp letters c hc))
  | dateTime m packed parts =>
    rw [parts] at hc
    exact chrono.plain_formatMicros m c hc
  | date n read packed parts =>
    rw [parts] at hc
    exact chrono.plain_formatDays n c hc

include h in
theorem datatype_mem :
    (inlineParts chrono id).2 ∈ [xsd "integer", xsd "boolean", xsd "dateTime", xsd "date"] := by
  cases h with
  | integer v packed parts => exact parts ▸ .head _
  | boolean b packed parts => exact parts ▸ .tail _ (.head _)
  | dateTime m packed parts => exact parts ▸ .tail _ (.tail _ (.head _))
  | date n read packed parts => exact parts ▸ .tail _ (.tail _ (.tail _ (.head _)))

include h in
theorem iriText : IriText (inlineParts chrono id).2 := by
  have all : [xsd "integer", xsd "boolean", xsd "dateTime", xsd "date"].all (fun t => t.all
      fun c => c ≠ '<' && c ≠ '>' && isWhitespace c = false) = true := by decide
  exact iriText_of_all (List.all_eq_true.mp all _ h.datatype_mem)

include h in
/-- What is printed is read as the same id, if it is inlined at all. -/
theorem eq_of_tryEncodeInline
    (again : tryEncodeInline chrono (inlineParts chrono id).1 (inlineParts chrono id).2 =
      some id') : id' = id := by
  cases h with
  | integer v packed parts =>
    simp only [parts, tryEncodeInline, ofIri_xsd.1] at again
    obtain ⟨v', parsed, -, packed'⟩ := tryEncodeInteger_eq_some.mp again
    rw [trim_of_plain fun c hc => mem_toString_int hc, parseInteger_toString] at parsed
    cases parsed
    exact Option.some.inj (packed'.symm.trans packed)
  | boolean b packed parts =>
    simp only [parts, tryEncodeInline, ofIri_xsd.2.1] at again
    obtain ⟨b', parsed, packed'⟩ := tryEncodeBoolean_eq_some.mp again
    have read : parseBoolean (trim (if b then "true".toList else "false".toList)) = some b := by
      cases b <;> decide
    cases read.symm.trans parsed
    exact packed'.symm.trans packed
  | dateTime m packed parts =>
    simp only [parts, tryEncodeInline, ofIri_xsd.2.2.1] at again
    obtain ⟨instant, parsed, packed'⟩ := tryEncodeDatetime_eq_some.mp again
    have fits := (packSigned_eq_some (by decide) packed).2.2.2
    have read := chrono.parse_formatMicros m fits
    cases read.symm.trans (parseDateTime_of_utcInstant parsed)
    have same : timestampMicros (m / 10 ^ 6, (m % 10 ^ 6).toNat * 1000) = m := by
      simp only [timestampMicros]
      omega
    rw [same] at packed'
    exact Option.some.inj (packed'.symm.trans packed)
  | date n read packed parts =>
    simp only [parts, tryEncodeInline, ofIri_xsd.2.2.2] at again
    obtain ⟨n', parsed, packed'⟩ := tryEncodeDate_eq_some.mp again
    obtain ⟨s, read⟩ := read
    cases (chrono.parse_formatDays s n read).symm.trans parsed
    exact Option.some.inj (packed'.symm.trans packed)

end Prints

end Inline

/-- The text that `encode_quoted_triple` stores. -/
def canonicalText (codec : Codec) (d : Dict) (s p o : Int) : Text :=
  "<< ".toList ++ d.formatNtriples codec s ++ " ".toList ++ d.formatNtriples codec p ++
    " ".toList ++ d.formatNtriples codec o ++ " >>".toList

theorem canonicalText_eq (codec : Codec) (d : Dict) (s p o : Int) :
    canonicalText codec d s p o =
      "<< ".toList ++ d.formatNtriples codec s ++ " ".toList ++ d.formatNtriples codec p ++
        " ".toList ++ d.formatNtriples codec o ++ " >>".toList := by
  delta canonicalText
  rfl

/-- The term of an id, from a row as the encoders write it. IRIs are stored in normal form,
and a literal has a row only if it is not inlined. -/
inductive StandsFor (codec : Codec) (d : Dict) : Int → Node → Prop where
  | inline {id : Int} (negative : isInline id = true) (prints : Prints codec.chrono id) :
      StandsFor codec d id
        (.literal (inlineParts codec.chrono id).1 (inlineParts codec.chrono id).2)
  | iri {id : Int} {text : Text} (positive : isInline id = false)
      (row : d.decodeFull id = some ⟨text, .iri, none, none, none⟩)
      (normal : codec.normalize text = text) : StandsFor codec d id (.iri text)
  | blank {id : Int} {label : Text} (positive : isInline id = false)
      (row : d.decodeFull id = some ⟨label, .blank, none, none, none⟩) :
      StandsFor codec d id (.blank id)
  | literal {id : Int} {value : Text} (positive : isInline id = false)
      (row : d.decodeFull id = some ⟨value, .literal, none, none, none⟩) :
      StandsFor codec d id (.literal value (xsd "string"))
  | typed {id : Int} {value datatype : Text} (positive : isInline id = false)
      (row : d.decodeFull id = some ⟨value, .typedLiteral, some datatype, none, none⟩)
      (stored : tryEncodeInline codec.chrono value datatype = none) :
      StandsFor codec d id (.literal value datatype)
  | lang {id : Int} {value lang : Text} (positive : isInline id = false)
      (row : d.decodeFull id = some ⟨value, .langLiteral, none, some lang, none⟩) :
      StandsFor codec d id (.langLiteral value lang)
  | quoted {id s p o : Int} {ns np no : Node} (positive : isInline id = false)
      (row : d.decodeFull id =
        some ⟨canonicalText codec d s p o, .quotedTriple, none, none, some (s, p, o)⟩)
      (subject : StandsFor codec d s ns) (predicate : StandsFor codec d p np)
      (object : StandsFor codec d o no) : StandsFor codec d id (.quoted ns np no)

/-- The default graph. -/
def defaultGraph (codec : Codec) (d : Dict) (st : Store) : Graph :=
  { t | ∃ q : Quad, st.Visible q ∧ q.g = 0 ∧ StandsFor codec d q.s t.1 ∧
    StandsFor codec d q.p t.2.1 ∧ StandsFor codec d q.o t.2.2 }

namespace StandsFor

variable {codec : Codec} {d : Dict} {id : Int} {n n' : Node}

theorem unique (h : StandsFor codec d id n) (h' : StandsFor codec d id n') : n = n' := by
  induction h generalizing n' with
  | inline negative prints =>
    cases h' with
    | inline => rfl
    | _ positive => simp [negative] at positive
  | iri positive row normal =>
    cases h' with
    | inline negative => simp [negative] at positive
    | iri _ row' => simp_all
    | _ _ row' => simp [row] at row'
  | blank positive row =>
    cases h' with
    | inline negative => simp [negative] at positive
    | blank => rfl
    | _ _ row' => simp [row] at row'
  | literal positive row =>
    cases h' with
    | inline negative => simp [negative] at positive
    | literal _ row' => simp_all
    | _ _ row' => simp [row] at row'
  | typed positive row stored =>
    cases h' with
    | inline negative => simp [negative] at positive
    | typed _ row' => simp_all
    | _ _ row' => simp [row] at row'
  | lang positive row =>
    cases h' with
    | inline negative => simp [negative] at positive
    | lang _ row' => simp_all
    | _ _ row' => simp [row] at row'
  | quoted positive row subject predicate object ihS ihP ihO =>
    cases h' with
    | inline negative => simp [negative] at positive
    | quoted _ row' subject' predicate' object' =>
      rw [row] at row'
      simp only [Option.some.injEq, TermInfo.mk.injEq, Prod.mk.injEq, true_and] at row'
      obtain ⟨-, rfl, rfl, rfl⟩ := row'
      rw [ihS subject', ihP predicate', ihO object']
    | _ _ row' => simp [row] at row'

end StandsFor

end PgRipple.Transfer
