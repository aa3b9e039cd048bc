import PgRipple.Transfer.Terms

/-!
# Encoding into a new dictionary

Every row of a dictionary that was filled by encoders belongs to something that was
encoded, an `Entry`, and is found by the hash of its text or of its components. If no two
entries of a load have the same hash, then each id that is returned belongs to the row of
its own entry.
-/

namespace PgRipple.Transfer

open Storage Dictionary

/-- What has a row of its own. -/
inductive Entry where
  | plain (text : Text) (kind : Kind)
  | typed (value datatype : Text)
  | lang (value tag : Text)
  | quoted (s p o : Int)
  deriving DecidableEq

namespace Entry

/-- What is hashed: a text with its kind, or three ids. -/
def input : Entry → (Text × Kind) ⊕ (Int × Int × Int)
  | .plain text kind => .inl (text, kind)
  | .typed value datatype => .inl (writeTyped value datatype, .typedLiteral)
  | .lang value tag => .inl ('"' :: value ++ "\"@".toList ++ tag, .langLiteral)
  | .quoted s p o => .inr (s, p, o)

def hash (codec : Codec) (e : Entry) : Hash :=
  match e.input with
  | .inl (text, kind) => codec.termHash text kind
  | .inr (s, p, o) => codec.quotedTripleHash s p o

/-- The columns of the row. -/
def info (codec : Codec) (d : Dict) : Entry → TermInfo
  | .plain text kind => ⟨text, kind, none, none, none⟩
  | .typed value datatype => ⟨value, .typedLiteral, some datatype, none, none⟩
  | .lang value tag => ⟨value, .langLiteral, none, some tag, none⟩
  | .quoted s p o => ⟨canonicalText codec d s p o, .quotedTriple, none, none, some (s, p, o)⟩

@[simp] theorem hash_plain {codec : Codec} {text : Text} {kind : Kind} :
    (Entry.plain text kind).hash codec = codec.termHash text kind := rfl

@[simp] theorem hash_typed {codec : Codec} {value datatype : Text} :
    (Entry.typed value datatype).hash codec =
      codec.termHash (writeTyped value datatype) .typedLiteral := rfl

@[simp] theorem hash_lang {codec : Codec} {value tag : Text} : (Entry.lang value tag).hash codec =
    codec.termHash ('"' :: value ++ "\"@".toList ++ tag) .langLiteral := rfl

@[simp] theorem hash_quoted {codec : Codec} {s p o : Int} :
    (Entry.quoted s p o).hash codec = codec.quotedTripleHash s p o := rfl

/-- Entries whose text can be taken apart again. -/
def Regular : Entry → Prop
  | .plain _ kind => kind = .iri ∨ kind = .blank ∨ kind = .literal
  | .typed _ datatype => '<' ∉ datatype
  | .lang _ tag => '@' ∉ tag
  | .quoted _ _ _ => True

theorem Regular.input_inj {e e' : Entry} (h : e.Regular) (h' : e'.Regular)
    (same : e.input = e'.input) : e = e' := by
  have notTyped {kind : Kind} (plain : kind = .iri ∨ kind = .blank ∨ kind = .literal) :
      kind ≠ .typedLiteral ∧ kind ≠ .langLiteral := by
    obtain rfl | rfl | rfl := plain <;> exact ⟨nofun, nofun⟩
  cases e with
  | plain text kind =>
    cases e' with
    | plain text' kind' =>
      cases same
      rfl
    | typed value' datatype' => exact absurd (Prod.mk.inj (Sum.inl.inj same)).2 (notTyped h).1
    | lang value' tag' => exact absurd (Prod.mk.inj (Sum.inl.inj same)).2 (notTyped h).2
    | quoted s' p' o' => cases same
  | typed value datatype =>
    cases e' with
    | plain text' kind' => exact absurd (Prod.mk.inj (Sum.inl.inj same)).2.symm (notTyped h').1
    | typed value' datatype' =>
      obtain ⟨rfl, rfl⟩ := writeTyped_inj h h' (Prod.mk.inj (Sum.inl.inj same)).1
      rfl
    | lang value' tag' => exact nomatch (Prod.mk.inj (Sum.inl.inj same)).2
    | quoted s' p' o' => cases same
  | lang value tag =>
    cases e' with
    | plain text' kind' => exact absurd (Prod.mk.inj (Sum.inl.inj same)).2.symm (notTyped h').2
    | typed value' datatype' => exact nomatch (Prod.mk.inj (Sum.inl.inj same)).2
    | lang value' tag' =>
      have text := (Prod.mk.inj (Sum.inl.inj same)).1
      have split (v l : Text) : '"' :: v ++ "\"@".toList ++ l = ('"' :: v ++ ['"']) ++ '@'
          :: l := by
        simp
      rw [split, split] at text
      obtain ⟨front, rfl⟩ := append_cons_inj h h' text
      have value : value = value' := by simpa using front
      rw [value]
    | quoted s' p' o' => cases same
  | quoted s p o =>
    cases e' with
    | plain text' kind' => cases same
    | typed value' datatype' => cases same
    | lang value' tag' => cases same
    | quoted s' p' o' =>
      cases same
      rfl

end Entry

section Entries

variable (codec : Codec) (session : Session)

/-- The entries that encoding a term looks up, in order. -/
def entries : RdfTerm → Dict → List Entry
  | .plain term kind, _ =>
    [.plain (if kind = .iri ∨ kind = .blank then codec.normalize term else term) kind]
  | .typed value datatype, _ =>
    if (tryEncodeInline codec.chrono value datatype).isSome then [] else [.typed value datatype]
  | .lang value tag, _ => [.lang value tag]
  | .quoted s p o, d =>
    let r := d.encodeRdfTerm codec session s
    let r' := r.2.encodeRdfTerm codec session p
    let r'' := r'.2.encodeRdfTerm codec session o
    entries s d ++ entries p r.2 ++ entries o r'.2 ++ [.quoted r.1 r'.1 r''.1]

/-- The dictionary after some terms were encoded one after another. -/
def encodeAll (terms : List RdfTerm) (d : Dict) : Dict :=
  terms.foldl (fun d t => (d.encodeRdfTerm codec session t).2) d

def allEntries : List RdfTerm → Dict → List Entry
  | [], _ => []
  | t :: terms, d =>
    entries codec session t d ++ allEntries terms (d.encodeRdfTerm codec session t).2

/-- Different texts and different triples that are hashed have different hashes. -/
def NoCollision (es : List Entry) : Prop :=
  ∀ e ∈ es, ∀ e' ∈ es, e.hash codec = e'.hash codec → e.input = e'.input

end Entries

instance (codec : Codec) (es : List Entry) : Decidable (NoCollision codec es) :=
  inferInstanceAs (Decidable (∀ e ∈ es, ∀ e' ∈ es, e.hash codec = e'.hash codec →
    e.input = e'.input))

/-- An id that a quoted triple can have as a component. -/
def Known (d : Dict) (id : Int) : Prop := isInline id = true ∨ d.HasRow id

def UniqueIds (d : Dict) : Prop :=
  ∀ r ∈ d.rows.rows, ∀ r' ∈ d.rows.rows, r.id = r'.id → r = r'

/-- Every row belongs to an entry, and ids are not used twice. -/
structure Filled (codec : Codec) (es : List Entry) (d : Dict) : Prop where
  sound : d.Sound
  next : 0 < d.nextId
  bounds : ∀ r ∈ d.rows.rows, 0 < r.id ∧ r.id < d.nextId
  unique : UniqueIds d
  entry : ∀ r ∈ d.rows.rows, ∃ e ∈ es, r.hash = e.hash codec ∧ r.info = e.info codec d
  components : ∀ r ∈ d.rows.rows, ∀ s p o, r.info.quotedTriple = some (s, p, o) →
    Known d s ∧ Known d p ∧ Known d o

section Filled

variable {codec : Codec} {session : Session} {es : List Entry} {d d' d'' : Dict} {id : Int}
  {e : Entry}

theorem filled_initial (codec : Codec) (es : List Entry) (ready : Bool) (dbOid : BitVec 32) :
    Filled codec es (Dict.initial ready dbOid) where
  sound := by
    intro hash128 id cached
    obtain held | ⟨session, found⟩ := cached
    · exact absurd held SharedCache.not_holds_initial
    · cases found
  next := Int.zero_lt_one
  bounds _ hr := nomatch hr
  unique _ hr := nomatch hr
  entry _ hr := nomatch hr
  components _ hr := nomatch hr

theorem UniqueIds.decodeFull (h : UniqueIds d) {r : TermRow} (hr : r ∈ d.rows.rows) :
    d.decodeFull r.id = some r.info := by
  rw [Dict.decodeFull]
  cases found : d.rows.rows.find? (fun r' => r'.id = r.id) with
  | none => simpa using List.find?_eq_none.mp found r hr
  | some r' =>
    have same : r'.id = r.id := by simpa using List.find?_some found
    rw [h r' (List.mem_of_find?_eq_some found) r hr same, Option.map_some]

theorem UniqueIds.formatNtriples_eq (h : UniqueIds d) (h' : UniqueIds d')
    (rows : ∀ r ∈ d.rows.rows, r ∈ d'.rows.rows) (known : Known d id) :
    d'.formatNtriples codec id = d.formatNtriples codec id := by
  obtain negative | ⟨r, hr, rfl⟩ := known
  · rw [Dict.formatNtriples, Dict.formatNtriples, if_pos negative, if_pos negative]
  · simp only [Dict.formatNtriples, h.decodeFull hr, h'.decodeFull (rows r hr)]

theorem Known.mono (h : Known d id) (rows : ∀ r ∈ d.rows.rows, r ∈ d'.rows.rows) : Known d' id := by
  obtain negative | ⟨r, hr, named⟩ := h
  · exact .inl negative
  · exact .inr ⟨r, rows r hr, named⟩

theorem formatNtriples_congr (rows : d'.rows = d.rows) (id : Int) :
    d'.formatNtriples codec id = d.formatNtriples codec id := by
  simp only [Dict.formatNtriples, Dict.decodeFull, rows]

theorem formatNtriples_of_row {info : TermInfo} (positive : isInline id = false)
    (row : d.decodeFull id = some info) : d.formatNtriples codec id =
      formatNtriplesTerm info.value info.kind info.datatype info.lang id := by
  simp only [Dict.formatNtriples, positive, row, Bool.false_eq_true, if_false]

theorem Entry.info_congr (same : ∀ s p o, e = .quoted s p o →
    d'.formatNtriples codec s = d.formatNtriples codec s ∧
      d'.formatNtriples codec p = d.formatNtriples codec p ∧
      d'.formatNtriples codec o = d.formatNtriples codec o) :
    e.info codec d' = e.info codec d := by
  cases e with
  | plain text kind => rfl
  | typed value datatype => rfl
  | lang value tag => rfl
  | quoted s p o =>
    obtain ⟨subject, predicate, object⟩ := same s p o rfl
    simp only [Entry.info, canonicalText_eq, subject, predicate, object]

/-- A step that changes the caches, or draws an id, changes nothing else. -/
theorem Filled.of_rows_eq (h : Filled codec es d) (sound : d'.Sound) (rows : d'.rows = d.rows)
    (next : d.nextId ≤ d'.nextId) : Filled codec es d' where
  sound := sound
  next := h.next.trans_le next
  bounds r hr := by
    rw [rows] at hr
    have := h.bounds r hr
    omega
  unique r hr r' hr' same := by
    rw [rows] at hr hr'
    exact h.unique r hr r' hr' same
  entry r hr := by
    rw [rows] at hr
    obtain ⟨e, he, hashed, info⟩ := h.entry r hr
    refine ⟨e, he, hashed, info.trans (Entry.info_congr fun s p o _ => ?_).symm⟩
    exact ⟨formatNtriples_congr rows s, formatNtriples_congr rows p, formatNtriples_congr rows o⟩
  components r hr s p o quoted := by
    rw [rows] at hr
    obtain ⟨hs, hp, ho⟩ := h.components r hr s p o quoted
    have kept : ∀ r ∈ d.rows.rows, r ∈ d'.rows.rows := by
      rw [rows]
      exact fun _ hr => hr
    exact ⟨hs.mono kept, hp.mono kept, ho.mono kept⟩

/-- The components of an entry, if it is a quoted triple. -/
def Entry.ComponentsKnown (d : Dict) (e : Entry) : Prop :=
  ∀ s p o, e = .quoted s p o → Known d s ∧ Known d p ∧ Known d o

theorem Entry.componentsKnown_quoted {s p o : Int} (hs : Known d s) (hp : Known d p)
    (ho : Known d o) : (Entry.quoted s p o).ComponentsKnown d := by
  intro s' p' o' same
  cases same
  exact ⟨hs, hp, ho⟩

theorem Entry.ComponentsKnown.info_eq (known : e.ComponentsKnown d) (h : UniqueIds d)
    (h' : UniqueIds d') (rows : ∀ r ∈ d.rows.rows, r ∈ d'.rows.rows) :
    e.info codec d' = e.info codec d := by
  refine Entry.info_congr fun s p o same => ?_
  obtain ⟨hs, hp, ho⟩ := known s p o same
  exact ⟨h.formatNtriples_eq h' rows hs, h.formatNtriples_eq h' rows hp,
    h.formatNtriples_eq h' rows ho⟩

theorem Filled.componentsKnown (h : Filled codec es d) {r : TermRow} (hr : r ∈ d.rows.rows)
    (info : r.info = e.info codec d) : e.ComponentsKnown d := by
  rintro s p o rfl
  exact h.components r hr s p o (by rw [info]; rfl)

theorem Filled.upsert (h : Filled codec es d) (he : e ∈ es) (known : e.ComponentsKnown d) :
    Filled codec es (d.upsert (e.hash codec) (e.info codec d)).2 := by
  have sound := (h.sound.upsert (e.hash codec) (e.info codec d)).1
  have next : d.nextId ≤ d.nextId + 1 := Int.le_add_one le_rfl
  revert sound
  rw [Dict.upsert]
  dsimp only
  split
  · intro sound
    exact h.of_rows_eq sound.sound rfl next
  · rename_i absent
    intro sound
    let new : TermRow := ⟨e.hash codec, d.nextId, e.info codec d⟩
    have mem {r : TermRow} (hr : r ∈ (d.rows.insertNew new).rows) : r ∈ d.rows.rows ∨ r = new :=
      (UniqueTable.mem_insertNew.mp hr).imp_right And.right
    have unique : UniqueIds { d with nextId := d.nextId + 1, rows := d.rows.insertNew new } := by
      intro r hr r' hr' same
      obtain old | rfl := mem hr
      · obtain old' | rfl := mem hr'
        · exact h.unique r old r' old' same
        · exact absurd same (h.bounds r old).2.ne
      · obtain old' | rfl := mem hr'
        · exact absurd same.symm (h.bounds r' old').2.ne
        · rfl
    refine ⟨sound.sound, h.next.trans_le next, ?_, unique, ?_, ?_⟩
    · intro r hr
      obtain old | rfl := mem hr
      · exact ⟨(h.bounds r old).1, (h.bounds r old).2.trans_le next⟩
      · exact ⟨h.next, Int.lt_succ _⟩
    · intro r hr
      obtain old | rfl := mem hr
      · obtain ⟨e', he', hashed, info⟩ := h.entry r old
        exact ⟨e', he', hashed,
          info.trans ((h.componentsKnown old info).info_eq h.unique unique sound.rows).symm⟩
      · exact ⟨e, he, rfl, (known.info_eq h.unique unique sound.rows).symm⟩
    · intro r hr s p o quoted
      obtain old | rfl := mem hr
      · obtain ⟨hs, hp, ho⟩ := h.components r old s p o quoted
        exact ⟨hs.mono sound.rows, hp.mono sound.rows, ho.mono sound.rows⟩
      · have same : e = .quoted s p o := by
          cases e with
          | plain text kind => cases quoted
          | typed value datatype => cases quoted
          | lang value tag => cases quoted
          | quoted s' p' o' =>
            cases quoted
            rfl
        obtain ⟨hs, hp, ho⟩ := known s p o same
        exact ⟨hs.mono sound.rows, hp.mono sound.rows, ho.mono sound.rows⟩

/-- The answer of the three tiers is the id of the entry's row. -/
theorem Filled.encodeTiers (h : Filled codec es d) (session : Session) (he : e ∈ es)
    (known : e.ComponentsKnown d) :
    Filled codec es (d.encodeTiers session (e.hash codec) (e.info codec d)).2 ∧
      Dict.Extends d (d.encodeTiers session (e.hash codec) (e.info codec d)).2 ∧
      (d.encodeTiers session (e.hash codec) (e.info codec d)).2.Stored (e.hash codec)
        (d.encodeTiers session (e.hash codec) (e.info codec d)).1 := by
  obtain ⟨looked, answer⟩ := h.sound.lookupTiers session (e.hash codec)
  have filled : Filled codec es (d.setTiers session ((d.tiers session).lookup (e.hash codec)).2) :=
    h.of_rows_eq looked.sound rfl le_rfl
  rw [Dict.encodeTiers]
  dsimp only
  split
  · rename_i id found
    exact ⟨filled, looked, answer id found⟩
  · have known' : e.ComponentsKnown
        (d.setTiers session ((d.tiers session).lookup (e.hash codec)).2) := by
      intro s p o same
      obtain ⟨hs, hp, ho⟩ := known s p o same
      exact ⟨hs.mono looked.rows, hp.mono looked.rows, ho.mono looked.rows⟩
    have info : e.info codec d =
        e.info codec (d.setTiers session ((d.tiers session).lookup (e.hash codec)).2) :=
      Entry.info_congr fun s p o _ =>
        ⟨formatNtriples_congr rfl s, formatNtriples_congr rfl p, formatNtriples_congr rfl o⟩
    rw [info]
    obtain ⟨extended, row⟩ := looked.sound.upsert (e.hash codec)
      (e.info codec (d.setTiers session ((d.tiers session).lookup (e.hash codec)).2))
    have published := extended.sound.publish session row
    have stored := filled.upsert he known'
    refine ⟨stored.of_rows_eq published.sound rfl le_rfl,
      looked.trans (extended.trans published), ?_⟩
    obtain ⟨r, hr, named⟩ := row
    exact ⟨r, published.rows r hr, named⟩

theorem isInline_of_tryEncodeInline {chrono : Chrono} {value datatype : Text}
    (inlined : tryEncodeInline chrono value datatype = some id) : isInline id = true := by
  have negative : id < 0 := by
    simp only [tryEncodeInline] at inlined
    split at inlined
    · obtain ⟨v, -, -, packed⟩ := tryEncodeInteger_eq_some.mp inlined
      exact (packSigned_eq_some (by decide) packed).1
    · obtain ⟨b, -, packed⟩ := tryEncodeBoolean_eq_some.mp inlined
      rw [← packed]
      exact (pack_boolean b).1
    · obtain ⟨instant, -, packed⟩ := tryEncodeDatetime_eq_some.mp inlined
      exact (packSigned_eq_some (by decide) packed).1
    · obtain ⟨n, -, packed⟩ := tryEncodeDate_eq_some.mp inlined
      exact (packSigned_eq_some (by decide) packed).1
    · cases inlined
  rw [isInline, decide_eq_true_iff]
  exact negative

section Equations

variable {value datatype tag term : Text} {kind : Kind} {s p o : RdfTerm}

/-- The entry of an IRI, a blank node or a plain literal. -/
abbrev plainEntry (codec : Codec) (term : Text) (kind : Kind) : Entry :=
  .plain (if kind = .iri ∨ kind = .blank then codec.normalize term else term) kind

theorem encodeRdfTerm_plain :
    d.encodeRdfTerm codec session (.plain term kind) = d.encodeTiers session
      ((plainEntry codec term kind).hash codec) ((plainEntry codec term kind).info codec d) := by
  simp only [Dict.encodeRdfTerm, Dict.encode, Entry.hash_plain, Entry.info]
  split <;> rfl

theorem encodeRdfTerm_typed (stored : tryEncodeInline codec.chrono value datatype = none) :
    d.encodeRdfTerm codec session (.typed value datatype) = d.encodeTiers session
      ((Entry.typed value datatype).hash codec) ((Entry.typed value datatype).info codec d) := by
  simp only [Dict.encodeRdfTerm, Dict.encodeTypedLiteral, stored, Entry.hash_typed, Entry.info]

theorem encodeRdfTerm_inline (inlined : tryEncodeInline codec.chrono value datatype = some id) :
    d.encodeRdfTerm codec session (.typed value datatype) = (id, d) := by
  simp only [Dict.encodeRdfTerm, Dict.encodeTypedLiteral, inlined]

theorem encodeRdfTerm_lang :
    d.encodeRdfTerm codec session (.lang value tag) = d.encodeTiers session
      ((Entry.lang value tag).hash codec) ((Entry.lang value tag).info codec d) := by
  simp only [Dict.encodeRdfTerm, Dict.encodeLangLiteral, Entry.hash_lang, Entry.info]

theorem encodeRdfTerm_quoted :
    d.encodeRdfTerm codec session (.quoted s p o) =
      let r := d.encodeRdfTerm codec session s
      let r' := r.2.encodeRdfTerm codec session p
      let r'' := r'.2.encodeRdfTerm codec session o
      r''.2.encodeTiers session ((Entry.quoted r.1 r'.1 r''.1).hash codec)
        ((Entry.quoted r.1 r'.1 r''.1).info codec r''.2) := by
  simp only [Dict.encodeRdfTerm, Dict.encodeQuotedTriple, Entry.hash_quoted, Entry.info,
    canonicalText_eq]

end Equations

/-- How a term is encoded: inline, or through the row of its last entry. -/
inductive Encodes (codec : Codec) (session : Session) (es : List Entry) (t : RdfTerm) (d : Dict) :
    Prop where
  | inline (id : Int) (inlined : t.Inlined codec id)
      (result : d.encodeRdfTerm codec session t = (id, d))
  | row (d' : Dict) (e : Entry) (listed : e ∈ es) (extended : Dict.Extends d d')
      (filled : Filled codec es d') (known : e.ComponentsKnown d')
      (result : d.encodeRdfTerm codec session t =
        d'.encodeTiers session (e.hash codec) (e.info codec d'))

theorem Encodes.spec (h : Filled codec es d) {t : RdfTerm}
    (encodes : Encodes codec session es t d) :
    Filled codec es (d.encodeRdfTerm codec session t).2 ∧
      Dict.Extends d (d.encodeRdfTerm codec session t).2 ∧
      Known (d.encodeRdfTerm codec session t).2 (d.encodeRdfTerm codec session t).1 := by
  cases encodes with
  | inline id inlined result =>
    rw [result]
    refine ⟨h, .refl h.sound, .inl ?_⟩
    cases t with
    | typed value datatype => exact isInline_of_tryEncodeInline inlined
    | plain term kind => cases inlined
    | lang value tag => cases inlined
    | quoted s p o => cases inlined
  | row d' e listed extended filled known result =>
    rw [result]
    obtain ⟨filled', extended', stored⟩ := filled.encodeTiers session listed known
    exact ⟨filled', extended.trans extended', .inr stored.hasRow⟩

theorem Filled.encodes (h : Filled codec es d) (session : Session) (t : RdfTerm)
    (listed : ∀ e ∈ entries codec session t d, e ∈ es) : Encodes codec session es t d := by
  induction t generalizing d with
  | plain term kind =>
    exact .row d _ (listed _ List.mem_cons_self) (.refl h.sound) h nofun encodeRdfTerm_plain
  | typed value datatype =>
    cases inlined : tryEncodeInline codec.chrono value datatype with
    | some id => exact .inline id inlined (encodeRdfTerm_inline inlined)
    | none =>
      have here : Entry.typed value datatype ∈ es := listed _ (by simp [entries, inlined])
      exact .row d _ here (.refl h.sound) h nofun (encodeRdfTerm_typed inlined)
  | lang value tag =>
    exact .row d _ (listed _ List.mem_cons_self) (.refl h.sound) h nofun encodeRdfTerm_lang
  | quoted s p o ihS ihP ihO =>
    simp only [entries, List.mem_append, List.mem_singleton] at listed
    obtain ⟨filled, extended, subject⟩ :=
      (ihS h fun e he => listed e (.inl (.inl (.inl he)))).spec h
    obtain ⟨filled', extended', predicate⟩ :=
      (ihP filled fun e he => listed e (.inl (.inl (.inr he)))).spec filled
    obtain ⟨filled'', extended'', object⟩ :=
      (ihO filled' fun e he => listed e (.inl (.inr he))).spec filled'
    have known := Entry.componentsKnown_quoted ((subject.mono extended'.rows).mono extended''.rows)
      (predicate.mono extended''.rows) object
    exact .row _ _ (listed _ (.inr rfl)) (extended.trans (extended'.trans extended'')) filled''
      known encodeRdfTerm_quoted

theorem Filled.encodeRdfTerm (h : Filled codec es d) (session : Session) (t : RdfTerm)
    (listed : ∀ e ∈ entries codec session t d, e ∈ es) :
    Filled codec es (d.encodeRdfTerm codec session t).2 ∧
      Dict.Extends d (d.encodeRdfTerm codec session t).2 ∧
      Known (d.encodeRdfTerm codec session t).2 (d.encodeRdfTerm codec session t).1 :=
  (h.encodes session t listed).spec h

theorem Filled.mono {es' : List Entry} (h : Filled codec es d) (more : ∀ e ∈ es, e ∈ es') :
    Filled codec es' d :=
  { h with
    entry := fun r hr => by
      obtain ⟨e, he, row⟩ := h.entry r hr
      exact ⟨e, more e he, row⟩ }

/-- With no collisions, the row found by an entry's hash is the entry's own. -/
theorem Filled.decodeFull_of_stored (h : Filled codec es d) (collisionFree : NoCollision codec es)
    (regular : ∀ e ∈ es, e.Regular) (listed : e ∈ es) (stored : d.Stored (e.hash codec) id) :
    isInline id = false ∧ d.decodeFull id = some (e.info codec d) := by
  obtain ⟨r, hr, hashed, rfl⟩ := stored
  obtain ⟨e', he', hashed', info⟩ := h.entry r hr
  have same : e' = e := (regular e' he').input_inj (regular e listed)
    (collisionFree e' he' e listed (hashed'.symm.trans hashed))
  rw [same] at info
  refine ⟨?_, by rw [h.unique.decodeFull hr, info]⟩
  have positive := (h.bounds r hr).1
  rw [isInline, decide_eq_false_iff_not]
  omega

end Filled

/-- The label under which a blank node is dumped. -/
def dumpedLabel (id : Int) : Text := 'b' :: (toString id).toList

namespace Node

/-- What the parser reads where the term was written. -/
def toRdf (generation : Int) : Node → RdfTerm
  | .iri text => .plain text .iri
  | .blank id => .plain (scopedLabel generation (dumpedLabel id)) .blank
  | .literal value datatype =>
    if datatype = xsd "string" then .plain (replaceLookalikes value) .literal
    else .typed (replaceLookalikes value) datatype
  | .langLiteral value lang => .lang (replaceLookalikes value) lang
  | .quoted s p o => .quoted (s.toRdf generation) (p.toRdf generation) (o.toRdf generation)

/-- IRIs are in normal form. -/
def Normal (codec : Codec) : Node → Prop
  | .iri text => codec.normalize text = text
  | .quoted s p o => s.Normal codec ∧ p.Normal codec ∧ o.Normal codec
  | _ => True

end Node

/-- A literal as it is stored: an inlined one is printed in its own form. -/
def storedLiteral (chrono : Chrono) (value datatype : Text) : Node :=
  match tryEncodeInline chrono value datatype with
  | some id => .literal (inlineParts chrono id).1 (inlineParts chrono id).2
  | none => .literal value datatype

/-- The term after a dump and a load, where blank nodes get new ids. -/
def Node.restored (codec : Codec) (f : Int → Int) : Node → Node
  | .iri text => .iri text
  | .blank id => .blank (f id)
  | .literal value datatype => storedLiteral codec.chrono (replaceLookalikes value) datatype
  | .langLiteral value lang => .langLiteral (replaceLookalikes value) lang
  | .quoted s p o => .quoted (s.restored codec f) (p.restored codec f) (o.restored codec f)

/-- The entry of a blank node. -/
def blankEntry (codec : Codec) (generation id : Int) : Entry :=
  .plain (codec.normalize (scopedLabel generation (dumpedLabel id))) .blank

/-- The new id of a blank node. -/
def blankId (codec : Codec) (generation : Int) (d : Dict) (id : Int) : Int :=
  ((d.rows.find? ((blankEntry codec generation id).hash codec)).map TermRow.id).getD 0

theorem tryEncodeInline_string (chrono : Chrono) (value : Text) :
    tryEncodeInline chrono value (xsd "string") = none := by
  have other : Datatype.ofIri (xsd "string") = .other := by decide
  rw [tryEncodeInline, other]

section Restored

variable {codec : Codec} {session : Session} {es : List Entry} {d d' : Dict}
  {generation id id' : Int}

theorem regular_entries {n : Node} (wellFormed : n.WellFormed) (d : Dict) :
    ∀ e ∈ entries codec session (n.toRdf generation) d, e.Regular := by
  induction n generalizing d with
  | iri text =>
    intro e he
    cases List.mem_singleton.mp he
    exact .inl rfl
  | blank id =>
    intro e he
    cases List.mem_singleton.mp he
    exact .inr (.inl rfl)
  | literal value datatype =>
    intro e he
    rw [Node.toRdf] at he
    split at he
    · cases List.mem_singleton.mp he
      exact .inr (.inr rfl)
    · rw [entries] at he
      split at he
      · cases he
      · cases List.mem_singleton.mp he
        exact fun bracket => (wellFormed _ bracket).1 rfl
  | langLiteral value lang =>
    intro e he
    cases List.mem_singleton.mp he
    intro at_
    have := wellFormed _ at_
    revert this
    decide
  | quoted s p o ihS ihP ihO =>
    intro e he
    simp only [Node.toRdf, entries, List.mem_append, List.mem_singleton] at he
    obtain ((he | he) | he) | rfl := he
    · exact ihS wellFormed.1 _ e he
    · exact ihP wellFormed.2.1 _ e he
    · exact ihO wellFormed.2.2 _ e he
    · trivial

theorem blankId_eq (stored : d.Stored ((blankEntry codec generation id).hash codec) id') :
    blankId codec generation d id = id' := by
  obtain ⟨r, hr, hashed, rfl⟩ := stored
  rw [blankId, UniqueTable.find?_eq_some_iff.mpr ⟨hr, hashed⟩]
  rfl

/-- The row that an entry was encoded to, in any later state. -/
theorem Filled.row_of_encodeTiers (h : Filled codec es d) (collisionFree : NoCollision codec es)
    (regular : ∀ e ∈ es, e.Regular) {e : Entry} (listed : e ∈ es) (known : e.ComponentsKnown d)
    (h' : Filled codec es d')
    (later : ∀ r ∈ (d.encodeTiers session (e.hash codec) (e.info codec d)).2.rows.rows,
      r ∈ d'.rows.rows) :
    d'.Stored (e.hash codec) (d.encodeTiers session (e.hash codec) (e.info codec d)).1 ∧
      isInline (d.encodeTiers session (e.hash codec) (e.info codec d)).1 = false ∧
      d'.decodeFull (d.encodeTiers session (e.hash codec) (e.info codec d)).1 =
        some (e.info codec d') := by
  obtain ⟨-, -, r, hr, hashed, named⟩ := h.encodeTiers session listed known
  have stored : d'.Stored (e.hash codec)
      (d.encodeTiers session (e.hash codec) (e.info codec d)).1 := ⟨r, later r hr, hashed, named⟩
  exact ⟨stored, h'.decodeFull_of_stored collisionFree regular listed stored⟩

theorem standsFor_typed (h : Filled codec es d) (collisionFree : NoCollision codec es)
    (regular : ∀ e ∈ es, e.Regular) {value datatype : Text} (bracketFree : '<' ∉ datatype)
    (listed : ∀ e ∈ entries codec session (.typed value datatype) d, e ∈ es)
    (h' : Filled codec es d')
    (later : ∀ r ∈ (d.encodeRdfTerm codec session (.typed value datatype)).2.rows.rows,
      r ∈ d'.rows.rows) :
    StandsFor codec d' (d.encodeRdfTerm codec session (.typed value datatype)).1
      (storedLiteral codec.chrono value datatype) := by
  cases inlined : tryEncodeInline codec.chrono value datatype with
  | some id =>
    rw [encodeRdfTerm_inline inlined, storedLiteral, inlined]
    have literal : Inlined codec.chrono ⟨value, datatype, bracketFree⟩ id :=
      inlined_iff.mp inlined
    exact .inline (isInline_of_tryEncodeInline inlined) (prints_of_inlined literal)
  | none =>
    have here : Entry.typed value datatype ∈ es := listed _ (by simp [entries, inlined])
    rw [encodeRdfTerm_typed inlined] at later
    rw [encodeRdfTerm_typed inlined, storedLiteral, inlined]
    obtain ⟨-, positive, row⟩ :=
      h.row_of_encodeTiers collisionFree regular here nofun h' later
    exact .typed positive row inlined

/-- A term that is read stands, in any later state, for what was restored. -/
theorem standsFor_encodeRdfTerm (h : Filled codec es d) (collisionFree : NoCollision codec es)
    (regular : ∀ e ∈ es, e.Regular) {n : Node} (wellFormed : n.WellFormed) (normal : n.Normal codec)
    (listed : ∀ e ∈ entries codec session (n.toRdf generation) d, e ∈ es) (h' : Filled codec es d')
    (later : ∀ r ∈ (d.encodeRdfTerm codec session (n.toRdf generation)).2.rows.rows,
      r ∈ d'.rows.rows) :
    StandsFor codec d' (d.encodeRdfTerm codec session (n.toRdf generation)).1
      (n.restored codec (blankId codec generation d')) := by
  induction n generalizing d with
  | iri text =>
    simp only [Node.toRdf, encodeRdfTerm_plain] at later ⊢
    obtain ⟨-, positive, row⟩ := h.row_of_encodeTiers collisionFree regular
      (listed _ List.mem_cons_self) nofun h' later
    have same : codec.normalize text = text := normal
    have info : (plainEntry codec text .iri).info codec d' = ⟨text, .iri, none, none, none⟩ := by
      simp [Entry.info, same]
    rw [info] at row
    exact .iri positive row same
  | blank id =>
    simp only [Node.toRdf, encodeRdfTerm_plain] at later ⊢
    obtain ⟨stored, positive, row⟩ := h.row_of_encodeTiers collisionFree regular
      (listed _ List.mem_cons_self) nofun h' later
    rw [Node.restored, blankId_eq stored]
    exact .blank positive row
  | literal value datatype =>
    by_cases string : datatype = xsd "string"
    · simp only [Node.toRdf, if_pos string, encodeRdfTerm_plain] at listed later ⊢
      obtain ⟨-, positive, row⟩ := h.row_of_encodeTiers collisionFree regular
        (listed _ List.mem_cons_self) nofun h' later
      have stored : storedLiteral codec.chrono (replaceLookalikes value) datatype =
          .literal (replaceLookalikes value) (xsd "string") := by
        rw [storedLiteral, string, tryEncodeInline_string]
      rw [Node.restored, stored]
      exact .literal positive row
    · simp only [Node.toRdf, if_neg string] at listed later ⊢
      exact standsFor_typed h collisionFree regular (fun bracket => (wellFormed _ bracket).1 rfl)
        listed h' later
  | langLiteral value lang =>
    simp only [Node.toRdf, encodeRdfTerm_lang] at later ⊢
    obtain ⟨-, positive, row⟩ := h.row_of_encodeTiers collisionFree regular
      (listed _ List.mem_cons_self) nofun h' later
    exact .lang positive row
  | quoted s p o ihS ihP ihO =>
    simp only [Node.toRdf, entries, List.mem_append, List.mem_singleton] at listed
    have listedS e he := listed e (.inl (.inl (.inl he)))
    have listedP e he := listed e (.inl (.inl (.inr he)))
    have listedO e he := listed e (.inl (.inr he))
    obtain ⟨filledS, -, knownS⟩ := h.encodeRdfTerm session _ listedS
    obtain ⟨filledP, extendsP, knownP⟩ := filledS.encodeRdfTerm session _ listedP
    obtain ⟨filledO, extendsO, knownO⟩ := filledP.encodeRdfTerm session _ listedO
    simp only [Node.toRdf, encodeRdfTerm_quoted] at later ⊢
    have known := Entry.componentsKnown_quoted ((knownS.mono extendsP.rows).mono extendsO.rows)
      (knownP.mono extendsO.rows) knownO
    have here := listed _ (.inr rfl)
    obtain ⟨-, extends', -⟩ := filledO.encodeTiers session here known
    have laterO r hr := later r (extends'.rows r hr)
    have laterP r hr := laterO r (extendsO.rows r hr)
    have laterS r hr := laterP r (extendsP.rows r hr)
    obtain ⟨-, positive, row⟩ :=
      filledO.row_of_encodeTiers collisionFree regular here known h' later
    exact .quoted positive row (ihS h wellFormed.1 normal.1 listedS laterS)
      (ihP filledS wellFormed.2.1 normal.2.1 listedP laterP)
      (ihO filledP wellFormed.2.2 normal.2.2 listedO laterO)

end Restored

end PgRipple.Transfer
