import PgRipple.Transfer.Loading
import PgRipple.Storage.Reachable
import Mathlib.Algebra.Order.BigOperators.Group.Finset
import Mathlib.Data.Set.Finite.Lattice

/-!
# Dump and restore

Loading a dump of the default graph into an empty store gives the graph back, with new
blank nodes, if no literal has a backslash in front of `n`, `r` or `t`. The reader takes
such a pair for an escape, so it gives the character that the pair stands for.

If there is such a literal, the graphs differ, and not only in this literal: a load never
adds a backslash, so a graph that has lost one is not isomorphic to what it was.
-/

namespace PgRipple.Transfer

open Storage Dictionary

section Export

variable {st : Store} {batchSize : Nat} {q : Quad}

/-- The batches hold the visible triples of the graph. -/
theorem mem_encodedTriples (positive : 1 ≤ batchSize) (unique : st.UniqueIds) {g : TermId} :
    q ∈ encodedTriples batchSize st g ↔ st.Visible q ∧ q.g = g := by
  obtain ⟨batches, exported, complete⟩ := Store.exists_batches st (some g) positive unique
  have admitted : Store.inGraph (some g) q.g = true ↔ q.g = g := by
    simp [Store.inGraph, eq_comm]
  rw [encodedTriples, exported, Option.getD_some, complete.1.mem_iff, List.mem_append,
    Store.mem_viewQuads, Store.mem_rareQuads, Store.mem_dedicatedPredicates, admitted,
    Store.Visible]
  tauto

end Export

section Encoded

variable {codec : Codec} {session : Session} {generation : Int} {es : List Entry} {d d' : Dict}

theorem Filled.encodeAll (h : Filled codec es d) (terms : List RdfTerm)
    (listed : ∀ e ∈ allEntries codec session terms d, e ∈ es) :
    Filled codec es (encodeAll codec session terms d) ∧
      Dict.Extends d (encodeAll codec session terms d) := by
  induction terms generalizing d with
  | nil => exact ⟨h, .refl h.sound⟩
  | cons t terms ih =>
    simp only [allEntries, List.mem_append] at listed
    obtain ⟨filled, extended, -⟩ := h.encodeRdfTerm session t fun e he => listed e (.inl he)
    obtain ⟨filled', extended'⟩ := ih filled fun e he => listed e (.inr he)
    exact ⟨filled', extended.trans extended'⟩

theorem Filled.stored_blank (h : Filled codec es d) {n : Node}
    (listed : ∀ e ∈ entries codec session (n.toRdf generation) d, e ∈ es)
    (later : ∀ r ∈ (d.encodeRdfTerm codec session (n.toRdf generation)).2.rows.rows,
      r ∈ d'.rows.rows) :
    ∀ b ∈ n.blanks, blankEntry codec generation b ∈ es ∧
      d'.Stored ((blankEntry codec generation b).hash codec) (blankId codec generation d' b) := by
  induction n generalizing d with
  | iri text => simp [Node.blanks]
  | blank id =>
    intro b hb
    cases List.mem_singleton.mp hb
    have here : blankEntry codec generation id ∈ es := listed _ List.mem_cons_self
    simp only [Node.toRdf, encodeRdfTerm_plain] at later
    obtain ⟨-, -, r, hr, hashed, named⟩ := h.encodeTiers session here
        (by simp [Entry.ComponentsKnown, blankEntry])
    have stored : d'.Stored ((blankEntry codec generation id).hash codec) r.id :=
      ⟨r, later r hr, hashed, rfl⟩
    rw [blankId_eq stored]
    exact ⟨here, stored⟩
  | literal value datatype => simp [Node.blanks]
  | langLiteral value lang => simp [Node.blanks]
  | quoted s p o ihS ihP ihO =>
    simp only [Node.toRdf, entries, List.mem_append, List.mem_singleton] at listed
    have listedS e he := listed e (.inl (.inl (.inl he)))
    have listedP e he := listed e (.inl (.inl (.inr he)))
    have listedO e he := listed e (.inl (.inr he))
    obtain ⟨filledS, -, knownS⟩ := h.encodeRdfTerm session _ listedS
    obtain ⟨filledP, extendsP, knownP⟩ := filledS.encodeRdfTerm session _ listedP
    obtain ⟨filledO, extendsO, knownO⟩ := filledP.encodeRdfTerm session _ listedO
    simp only [Node.toRdf, encodeRdfTerm_quoted] at later
    have known := Entry.componentsKnown_quoted ((knownS.mono extendsP.rows).mono extendsO.rows)
      (knownP.mono extendsO.rows) knownO
    obtain ⟨-, extends', -⟩ := filledO.encodeTiers session (listed _ (.inr rfl)) known
    have laterO r hr := later r (extends'.rows r hr)
    have laterP r hr := laterO r (extendsO.rows r hr)
    have laterS r hr := laterP r (extendsP.rows r hr)
    intro b hb
    simp only [Node.blanks, List.mem_append] at hb
    obtain (hb | hb) | hb := hb
    · exact ihS h listedS laterS b hb
    · exact ihP filledS listedP laterP b hb
    · exact ihO filledP listedO laterO b hb

/-- What the loaded quad of a triple is, in the new dictionary. -/
structure RestoredAs (codec : Codec) (generation : Int) (es : List Entry) (d : Dict)
    (t : Node × Node × Node) (q : Quad) : Prop where
  graph : q.g = 0
  subject : StandsFor codec d q.s (t.1.restored codec (blankId codec generation d))
  predicate : StandsFor codec d q.p (t.2.1.restored codec (blankId codec generation d))
  object : StandsFor codec d q.o (t.2.2.restored codec (blankId codec generation d))
  blanks : ∀ b ∈ blanksOf t, blankEntry codec generation b ∈ es ∧
    d.Stored ((blankEntry codec generation b).hash codec) (blankId codec generation d b)

/-- What the encoders need of a term. -/
def Node.Encodable (codec : Codec) (n : Node) : Prop := n.WellFormed ∧ n.Normal codec

def EncodableTriple (codec : Codec) (t : Node × Node × Node) : Prop :=
  t.1.Encodable codec ∧ t.2.1.Encodable codec ∧ t.2.2.Encodable codec

theorem allEntries_append {terms terms' : List RdfTerm} :
    allEntries codec session (terms ++ terms') d = allEntries codec session terms d ++
      allEntries codec session terms' (encodeAll codec session terms d) := by
  induction terms generalizing d with
  | nil => rfl
  | cons t terms ih => simp [allEntries, encodeAll, ih]

theorem regular_allEntries {triples : List (Node × Node × Node)}
    (encodable : ∀ t ∈ triples, EncodableTriple codec t) (d : Dict) :
    ∀ e ∈ allEntries codec session (triples.flatMap (tripleTerms generation)) d, e.Regular := by
  induction triples generalizing d with
  | nil => exact nofun
  | cons t triples ih =>
    obtain ⟨subject, predicate, object⟩ := encodable t List.mem_cons_self
    intro e he
    rw [List.flatMap_cons, allEntries_append, List.mem_append] at he
    obtain he | he := he
    · simp only [tripleTerms, allEntries, List.append_nil, List.mem_append] at he
      obtain he | he | he := he
      · exact regular_entries subject.1 _ e he
      · exact regular_entries predicate.1 _ e he
      · exact regular_entries object.1 _ e he
    · exact ih (fun t ht => encodable t (List.mem_cons_of_mem _ ht)) _ e he

theorem Filled.restoredAs (h : Filled codec es d) (collisionFree : NoCollision codec es)
    (regular : ∀ e ∈ es, e.Regular) {t : Node × Node × Node} (encodable : EncodableTriple codec t)
    (listed : ∀ e ∈ allEntries codec session (tripleTerms generation t) d, e ∈ es)
    (h' : Filled codec es d')
    (later : ∀ r ∈ (Transfer.encodeAll codec session (tripleTerms generation t) d).rows.rows,
      r ∈ d'.rows.rows) :
    RestoredAs codec generation es d' t (loadedQuad codec session generation t d) := by
  simp only [tripleTerms, allEntries, List.append_nil, List.mem_append] at listed
  have listedS e he := listed e (.inl he)
  have listedP e he := listed e (.inr (.inl he))
  have listedO e he := listed e (.inr (.inr he))
  obtain ⟨subject, predicate, object⟩ := encodable
  obtain ⟨filledS, -, -⟩ := h.encodeRdfTerm session _ listedS
  obtain ⟨filledP, extendsP, -⟩ := filledS.encodeRdfTerm session _ listedP
  obtain ⟨-, extendsO, -⟩ := filledP.encodeRdfTerm session _ listedO
  have laterP r hr := later r (extendsO.rows r hr)
  have laterS r hr := laterP r (extendsP.rows r hr)
  refine
    ⟨rfl, standsFor_encodeRdfTerm h collisionFree regular subject.1 subject.2 listedS h' laterS,
    standsFor_encodeRdfTerm filledS collisionFree regular predicate.1 predicate.2 listedP h' laterP,
    standsFor_encodeRdfTerm filledP collisionFree regular object.1 object.2 listedO h' later, ?_⟩
  intro b hb
  simp only [blanksOf, List.mem_append] at hb
  obtain (hb | hb) | hb := hb
  · exact h.stored_blank listedS laterS b hb
  · exact filledS.stored_blank listedP laterP b hb
  · exact filledP.stored_blank listedO later b hb

theorem Filled.forall₂_restoredAs (h : Filled codec es d) (collisionFree : NoCollision codec es)
    (regular : ∀ e ∈ es, e.Regular) {triples : List (Node × Node × Node)}
    (encodable : ∀ t ∈ triples, EncodableTriple codec t)
    (listed : ∀ e ∈ allEntries codec session (triples.flatMap (tripleTerms generation)) d, e ∈ es)
    (h' : Filled codec es d')
    (later : ∀ r ∈ (Transfer.encodeAll codec session
      (triples.flatMap (tripleTerms generation)) d).rows.rows, r ∈ d'.rows.rows) :
    List.Forall₂ (RestoredAs codec generation es d') triples
      (loadedQuads codec session generation triples d) := by
  induction triples generalizing d with
  | nil => exact .nil
  | cons t triples ih =>
    simp only [List.flatMap_cons, allEntries_append, List.mem_append] at listed
    rw [List.flatMap_cons, Transfer.encodeAll, List.foldl_append] at later
    have listedHere e he := listed e (.inl he)
    have listedRest e he := listed e (.inr he)
    obtain ⟨filled, -⟩ := h.encodeAll _ listedHere
    obtain ⟨-, extended⟩ := filled.encodeAll _ listedRest
    refine .cons (h.restoredAs collisionFree regular (encodable t List.mem_cons_self) listedHere h'
      fun r hr => later r (extended.rows r hr)) ?_
    exact ih filled (fun t ht => encodable t (List.mem_cons_of_mem _ ht)) listedRest later

/-- What is known of codes in ASCII: they are in every normal form. -/
def KeepsAscii (codec : Codec) : Prop :=
  ∀ t : Text, (∀ c ∈ t, c.toNat < 128) → codec.normalize t = t

theorem ascii_of_alphanum {c : Char} (h : c.isAlphanum ∨ c = '-') : c.toNat < 128 := by
  obtain h | rfl := h
  · simp only [isAlphanum_iff, UInt32.le_iff_toNat_le] at h
    simp at h
    omega
  · decide

theorem ascii_scopedLabel (generation id : Int) :
    ∀ c ∈ scopedLabel generation (dumpedLabel id), c.toNat < 128 := by
  intro c hc
  simp only [scopedLabel, dumpedLabel, List.mem_append, List.mem_cons] at hc
  obtain digit | rfl | rfl | digit := hc
  · exact ascii_of_alphanum (mem_toString_int digit)
  · decide
  · decide
  · exact ascii_of_alphanum (mem_toString_int digit)

theorem dumpedLabel_injective : Function.Injective dumpedLabel := by
  intro id id' same
  have digits : (toString id).toList = (toString id').toList := (List.cons.inj same).2
  have read := congrArg parseInteger digits
  rw [parseInteger_toString, parseInteger_toString] at read
  exact Option.some.inj read

/-- Different blank nodes are different after the load. -/
theorem Filled.injOn_blankId (h : Filled codec es d) (collisionFree : NoCollision codec es)
    (ascii : KeepsAscii codec) {blanks : Set Int}
    (stored : ∀ b ∈ blanks, blankEntry codec generation b ∈ es ∧
      d.Stored ((blankEntry codec generation b).hash codec) (blankId codec generation d b)) :
    Set.InjOn (blankId codec generation d) blanks := by
  intro b hb b' hb' same
  obtain ⟨listed, r, hr, hashed, named⟩ := stored b hb
  obtain ⟨listed', r', hr', hashed', named'⟩ := stored b' hb'
  have row : r = r' := h.unique r hr r' hr' (named.trans (same.trans named'.symm))
  rw [← row] at hashed'
  have label := collisionFree _ listed _ listed' (hashed.symm.trans hashed')
  simp only [blankEntry, Entry.input, Sum.inl.injEq, Prod.mk.injEq, and_true] at label
  rw [ascii _ (ascii_scopedLabel generation b), ascii _ (ascii_scopedLabel generation b')] at label
  have rest := List.append_cancel_left label
  exact dumpedLabel_injective (List.cons.inj rest).2

end Encoded

/-- A triple after a dump and a load. -/
def restoredTriple (codec : Codec) (f : Int → Int) (t : Node × Node × Node) : Node × Node × Node :=
  (t.1.restored codec f, t.2.1.restored codec f, t.2.2.restored codec f)

/-- The triples that are exported, given the term of each id. -/
def dumped (batchSize : Nat) (node : Int → Node) (st : Store) : List (Node × Node × Node) :=
  (encodedTriples batchSize st 0).map fun q => (node q.s, node q.p, node q.o)

/-- Each id of the default graph stands for its term. -/
def Represents (codec : Codec) (node : Int → Node) (d : Dict) (st : Store) : Prop :=
  ∀ q : Quad, st.Visible q → q.g = 0 → ∀ id ∈ [q.s, q.p, q.o],
    StandsFor codec d id (node id) ∧ (node id).WellFormed

section Graph

variable {codec : Codec} {node : Int → Node} {d : Dict} {st : Store} {batchSize : Nat}

theorem Represents.mem_defaultGraph (h : Represents codec node d st) (positive : 1 ≤ batchSize)
    (unique : st.UniqueIds) (t : Node × Node × Node) :
    t ∈ defaultGraph codec d st ↔ t ∈ dumped batchSize node st := by
  simp only [defaultGraph, Set.mem_ofPred_eq, dumped, List.mem_map,
    mem_encodedTriples positive unique]
  constructor
  · rintro ⟨q, visible, graph, subject, predicate, object⟩
    have stands := h q visible graph
    refine ⟨q, ⟨visible, graph⟩, ?_⟩
    rw [(stands q.s (by simp)).1.unique subject, (stands q.p (by simp)).1.unique predicate,
      (stands q.o (by simp)).1.unique object]
  · rintro ⟨q, ⟨visible, graph⟩, rfl⟩
    have stands := h q visible graph
    exact ⟨q, visible, graph, (stands q.s (by simp)).1, (stands q.p (by simp)).1,
      (stands q.o (by simp)).1⟩

theorem Represents.encodable (h : Represents codec node d st) (positive : 1 ≤ batchSize)
    (unique : st.UniqueIds) : ∀ t ∈ dumped batchSize node st, EncodableTriple codec t := by
  intro t ht
  obtain ⟨q, hq, rfl⟩ := List.mem_map.mp ht
  obtain ⟨visible, graph⟩ := (mem_encodedTriples positive unique).mp hq
  have encodable (id : Int) (listed : id ∈ [q.s, q.p, q.o]) : (node id).Encodable codec :=
    ⟨(h q visible graph id listed).2, (h q visible graph id listed).1.normal⟩
  exact ⟨encodable q.s (by simp), encodable q.p (by simp), encodable q.o (by simp)⟩

theorem Represents.writtenLine (h : Represents codec node d st) (positive : 1 ≤ batchSize)
    (unique : st.UniqueIds) (labelHash : Text → Nat) :
    List.Forall₂ WrittenLine (dumped batchSize node st)
      ((encodedTriples batchSize st 0).map (exportLine codec labelHash d)) := by
  rw [dumped, List.forall₂_map_left_iff, List.forall₂_map_right_iff, List.forall₂_same]
  intro q hq
  obtain ⟨visible, graph⟩ := (mem_encodedTriples positive unique).mp hq
  have stands := h q visible graph
  obtain ⟨subject, wellFormedS⟩ := stands q.s (by simp)
  obtain ⟨predicate, wellFormedP⟩ := stands q.p (by simp)
  obtain ⟨object, wellFormedO⟩ := stands q.o (by simp)
  refine ⟨⟨_, _, _, subject.writes, predicate.writes, object.writes, ?_⟩, wellFormedS, wellFormedP,
    wellFormedO⟩
  exact exportLine_eq subject object labelHash

theorem Represents.newline_not_mem (h : Represents codec node d st) (positive : 1 ≤ batchSize)
    (unique : st.UniqueIds) (labelHash : Text → Nat) :
    ∀ q ∈ encodedTriples batchSize st 0, '\n' ∉ exportLine codec labelHash d q := by
  have written := h.writtenLine positive unique labelHash
  rw [dumped, List.forall₂_map_left_iff, List.forall₂_map_right_iff, List.forall₂_same] at written
  intro q hq
  exact (written q hq).newline_not_mem

end Graph

section Load

variable (batchSize : Nat) (cfg : Config) (codec : Codec) (labelHash : Text → Nat)
  (session : Session) (generation : Int) (strict : Bool) (ready : Bool) (dbOid : BitVec 32)

/-- A load of the dump into an empty store. -/
def loadDump (d : Dict) (st : Store) : Option LoadState :=
  loadNtriples cfg codec session generation strict
    (exportNtriples codec labelHash batchSize d st) (.initial ready dbOid) .initial

/-- The dump can be loaded without a warning, and gives the same graph. -/
def Restores (d : Dict) (st : Store) : Prop :=
  ∃ s, loadDump batchSize cfg codec labelHash session generation strict ready dbOid d st = some s ∧
    s.skipped = 0 ∧ Isomorphic (defaultGraph codec d st) (defaultGraph codec s.dict s.store)

/-- All that is hashed while the dump is loaded. -/
def dumpEntries (node : Int → Node) (st : Store) : List Entry :=
  allEntries codec session ((dumped batchSize node st).flatMap (tripleTerms generation))
    (.initial ready dbOid)

end Load

section Load

variable {batchSize : Nat} {cfg : Config} {codec : Codec} {labelHash : Text → Nat}
  {session : Session} {generation : Int} {strict : Bool} {ready : Bool} {dbOid : BitVec 32}
  {node : Int → Node} {d : Dict} {st : Store}

variable (cfg labelHash strict) in
theorem Represents.loadDump (h : Represents codec node d st) (positive : 1 ≤ batchSize)
    (unique : st.UniqueIds) (ascii : KeepsAscii codec)
    (collisionFree : NoCollision codec
      (dumpEntries batchSize codec session generation ready dbOid node st)) :
    ∃ s f, Transfer.loadDump batchSize cfg codec labelHash session generation strict ready dbOid d
        st = some s ∧ s.skipped = 0 ∧
      Set.InjOn f { b | ∃ t ∈ defaultGraph codec d st, b ∈ blanksOf t } ∧
      defaultGraph codec s.dict s.store = restoredTriple codec f '' defaultGraph codec d st := by
  let es := dumpEntries batchSize codec session generation ready dbOid node st
  have graph := h.mem_defaultGraph positive unique
  have encodable := h.encodable positive unique
  have written : List.Forall₂ WrittenLine (dumped batchSize node st)
      (lines (exportNtriples codec labelHash batchSize d st)) := by
    have lines := h.writtenLine positive unique labelHash
    rwa [exportNtriples, lines_flatMap _ _ (h.newline_not_mem positive unique labelHash)]
  obtain ⟨s, loaded, dict, skipped, visible⟩ := exists_loadNtriples cfg codec session generation
    strict written Store.layout_initial (.initial ready dbOid)
  obtain ⟨filled, -⟩ := (filled_initial codec es ready dbOid).encodeAll _ fun _ he => he
  have restored := (filled_initial codec es ready dbOid).forall₂_restoredAs collisionFree
    (regular_allEntries encodable _) encodable (fun _ he => he) filled fun _ hr => hr
  rw [← dict] at filled restored
  refine ⟨s, blankId codec generation s.dict, loaded, skipped, ?_, ?_⟩
  · refine filled.injOn_blankId collisionFree ascii ?_
    rintro b ⟨t, ht, hb⟩
    obtain ⟨q, -, restoredAs⟩ :=
      Fold.exists_right_of_forall₂ restored ((graph t).mp ht)
    exact restoredAs.blanks b hb
  · ext t'
    simp only [Set.mem_image, graph]
    constructor
    · rintro ⟨q, hq, -, subject, predicate, object⟩
      have listed := ((visible q).mp hq).resolve_left (Store.not_visible_initial q)
      obtain ⟨t, ht, restoredAs⟩ := Fold.exists_left_of_forall₂ restored listed
      refine ⟨t, ht, ?_⟩
      rw [restoredTriple, restoredAs.subject.unique subject,
        restoredAs.predicate.unique predicate, restoredAs.object.unique object]
    · rintro ⟨t, ht, rfl⟩
      obtain ⟨q, hq, restoredAs⟩ := Fold.exists_right_of_forall₂ restored ht
      exact ⟨q, (visible q).mpr (.inr hq), restoredAs.graph, restoredAs.subject,
        restoredAs.predicate, restoredAs.object⟩

end Load

namespace Node

/-- The number of backslashes in the literals. -/
def backslashes : Node → Nat
  | .literal value _ | .langLiteral value _ => value.count '\\'
  | .quoted s p o => s.backslashes + p.backslashes + o.backslashes
  | _ => 0

variable {codec : Codec} {f : Int → Int}

theorem backslashes_renameBlanks (n : Node) : (n.renameBlanks f).backslashes = n.backslashes := by
  induction n with
  | quoted s p o ihS ihP ihO => simp only [renameBlanks, backslashes, ihS, ihP, ihO]
  | _ => rfl

/-- A literal that is read differently has lost a backslash. -/
theorem count_replaceLookalikes (value : Text) :
    (replaceLookalikes value).count '\\' ≤ value.count '\\' ∧
      (¬ Dictionary.NoLookalike value →
        (replaceLookalikes value).count '\\' < value.count '\\') := by
  have lost (k image : Char) (hk : k ≠ '\\') (hi : image ≠ '\\') (s : Text) :=
    Escape.count_replacePair hk hi s
  have n := lost 'n' '\n' (by decide) (by decide) value
  have r := lost 'r' '\r' (by decide) (by decide) (Escape.replacePair '\\' 'n' '\n' value)
  have t := lost 't' '\t' (by decide) (by decide)
    (Escape.replacePair '\\' 'r' '\r' (Escape.replacePair '\\' 'n' '\n' value))
  rw [← replaceLookalikes] at t
  have shorter := length_replaceLookalikes_le value
  refine ⟨by omega, fun found => ?_⟩
  have changed : (replaceLookalikes value).length ≠ value.length := by
    exact fun same => found (noLookalike_of_length same)
  omega

theorem backslashes_storedLiteral (chrono : Chrono) (value : Text) {datatype : Text}
    (bracketFree : '<' ∉ datatype) :
    (storedLiteral chrono value datatype).backslashes ≤ value.count '\\' := by
  rw [storedLiteral]
  split
  · rename_i id inlined
    have literal : Inlined chrono ⟨value, datatype, bracketFree⟩ id := inlined_iff.mp inlined
    have none : (inlineParts chrono id).1.count '\\' = 0 := by
      rw [List.count_eq_zero]
      intro mem
      have plain := (prints_of_inlined literal).plain _ mem
      cases plain
    rw [backslashes, none]
    exact Nat.zero_le _
  · exact le_rfl

theorem backslashes_restored {n : Node} (wellFormed : n.WellFormed) :
    (n.restored codec f).backslashes ≤ n.backslashes ∧
      (¬ n.NoLookalike → (n.restored codec f).backslashes < n.backslashes) := by
  induction n with
  | iri text => exact ⟨le_rfl, fun found => absurd trivial found⟩
  | blank id => exact ⟨le_rfl, fun found => absurd trivial found⟩
  | literal value datatype =>
    have bracketFree : '<' ∉ datatype := fun bracket => (wellFormed _ bracket).1 rfl
    have stored := backslashes_storedLiteral codec.chrono (replaceLookalikes value) bracketFree
    obtain ⟨le, lt⟩ := count_replaceLookalikes value
    exact ⟨stored.trans le, fun found => stored.trans_lt (lt found)⟩
  | langLiteral value lang => exact count_replaceLookalikes value
  | quoted s p o ihS ihP ihO =>
    obtain ⟨leS, ltS⟩ := ihS wellFormed.1
    obtain ⟨leP, ltP⟩ := ihP wellFormed.2.1
    obtain ⟨leO, ltO⟩ := ihO wellFormed.2.2
    simp only [restored, backslashes, NoLookalike]
    refine ⟨by omega, fun found => ?_⟩
    by_cases noneS : s.NoLookalike
    · by_cases noneP : p.NoLookalike
      · have := ltO fun noneO => found ⟨noneS, noneP, noneO⟩
        omega
      · have := ltP noneP
        omega
    · have := ltS noneS
      omega

/-- Renaming is one-to-one on terms, if it is on their blank nodes. -/
theorem renameBlanks_injOn {blanks : Set Int} (injective : Set.InjOn f blanks) {n n' : Node}
    (h : ∀ b ∈ n.blanks, b ∈ blanks) (h' : ∀ b ∈ n'.blanks, b ∈ blanks)
    (same : n.renameBlanks f = n'.renameBlanks f) : n = n' := by
  induction n generalizing n' with
  | blank id =>
    cases n' with
    | blank id' =>
      have ids : f id = f id' := by simpa [renameBlanks] using same
      rw [injective (h id List.mem_cons_self) (h' id' List.mem_cons_self) ids]
    | _ => cases same
  | quoted s p o ihS ihP ihO =>
    cases n' with
    | quoted s' p' o' =>
      simp only [renameBlanks, Node.quoted.injEq] at same
      simp only [Node.blanks, List.mem_append] at h h'
      rw [ihS (fun b hb => h b (.inl (.inl hb))) (fun b hb => h' b (.inl (.inl hb))) same.1,
        ihP (fun b hb => h b (.inl (.inr hb))) (fun b hb => h' b (.inl (.inr hb))) same.2.1,
        ihO (fun b hb => h b (.inr hb)) (fun b hb => h' b (.inr hb)) same.2.2]
    | _ => cases same
  | iri text =>
    cases n' with
    | iri text' => exact same
    | _ => cases same
  | literal value datatype =>
    cases n' with
    | literal value' datatype' => exact same
    | _ => cases same
  | langLiteral value lang =>
    cases n' with
    | langLiteral value' lang' => exact same
    | _ => cases same

end Node

/-- A term without such a literal is only renamed. -/
theorem StandsFor.restored_eq {codec : Codec} {d : Dict} {id : Int} {n : Node} (f : Int → Int)
    (h : StandsFor codec d id n) (none : n.NoLookalike) :
    n.restored codec f = n.renameBlanks f := by
  have unchanged {value : Text} (none : Dictionary.NoLookalike value) :
      replaceLookalikes value = value := (replaceLookalikes_eq_self_iff value).mpr none
  induction h with
  | inline negative prints =>
    rw [Node.restored, unchanged none, storedLiteral]
    split
    · rename_i id' inlined
      rw [prints.eq_of_tryEncodeInline inlined]
      rfl
    · rfl
  | iri positive row normal => rfl
  | blank positive row => rfl
  | literal positive row =>
    rw [Node.restored, unchanged none, storedLiteral, tryEncodeInline_string]
    rfl
  | typed positive row stored =>
    rw [Node.restored, unchanged none, storedLiteral, stored]
    rfl
  | lang positive row =>
    rw [Node.restored, unchanged none]
    rfl
  | quoted positive row subject predicate object ihS ihP ihO =>
    rw [Node.restored, ihS none.1, ihP none.2.1, ihO none.2.2]
    rfl

/-- No literal of the triple, at any depth, has a backslash in front of `n`, `r` or `t`. -/
def NoLookalikeTriple (t : Node × Node × Node) : Prop :=
  t.1.NoLookalike ∧ t.2.1.NoLookalike ∧ t.2.2.NoLookalike

def tripleBackslashes (t : Node × Node × Node) : Nat :=
  t.1.backslashes + t.2.1.backslashes + t.2.2.backslashes

section Restore

variable {batchSize : Nat} {cfg : Config} {codec : Codec} {labelHash : Text → Nat}
  {session : Session} {generation : Int} {strict : Bool} {ready : Bool} {dbOid : BitVec 32}
  {node : Int → Node} {d : Dict} {st : Store} {f : Int → Int}

theorem tripleBackslashes_renameTriple (t : Node × Node × Node) :
    tripleBackslashes (renameTriple f t) = tripleBackslashes t := by
  simp only [tripleBackslashes, renameTriple, Node.backslashes_renameBlanks]

theorem tripleBackslashes_restoredTriple {t : Node × Node × Node}
    (encodable : EncodableTriple codec t) :
    tripleBackslashes (restoredTriple codec f t) ≤ tripleBackslashes t ∧
      (¬ NoLookalikeTriple t →
        tripleBackslashes (restoredTriple codec f t) < tripleBackslashes t) := by
  obtain ⟨subject, predicate, object⟩ := encodable
  -- A triple is counted like a quoted triple.
  exact Node.backslashes_restored (n := .quoted t.1 t.2.1 t.2.2)
    ⟨subject.1, predicate.1, object.1⟩

theorem renameTriple_injOn {graph : Graph}
    (injective : Set.InjOn f { b | ∃ t ∈ graph, b ∈ blanksOf t }) :
    Set.InjOn (renameTriple f) graph := by
  intro t ht t' ht' same
  have blanks {t : Node × Node × Node} (ht : t ∈ graph) (b : Int) (hb : b ∈ blanksOf t) :
      b ∈ { b | ∃ t ∈ graph, b ∈ blanksOf t } := ⟨t, ht, hb⟩
  have quoted : Node.quoted t.1 t.2.1 t.2.2 = .quoted t'.1 t'.2.1 t'.2.2 := by
    refine Node.renameBlanks_injOn injective (blanks ht) (blanks ht') ?_
    simp only [renameTriple, Prod.mk.injEq] at same
    simp only [Node.renameBlanks, same]
  simp only [Node.quoted.injEq] at quoted
  exact Prod.ext quoted.1 (Prod.ext quoted.2.1 quoted.2.2)

/-- A finite graph that has lost a backslash is another graph. -/
theorem not_isomorphic_restored {graph : Finset (Node × Node × Node)}
    (encodable : ∀ t ∈ graph, EncodableTriple codec t) {t : Node × Node × Node} (ht : t ∈ graph)
    (found : ¬ NoLookalikeTriple t) :
    ¬ Isomorphic (graph : Graph) (restoredTriple codec f '' graph) := by
  rintro ⟨g, injective, same⟩
  have images : graph.image (restoredTriple codec f) = graph.image (renameTriple g) := by
    apply Finset.coe_injective
    simpa only [Finset.coe_image] using same
  have lost : ∑ t ∈ graph, tripleBackslashes (restoredTriple codec f t) <
      ∑ t ∈ graph, tripleBackslashes t := by
    apply Finset.sum_lt_sum
    · exact fun t ht => (tripleBackslashes_restoredTriple (encodable t ht)).1
    · exact ⟨t, ht, (tripleBackslashes_restoredTriple (encodable t ht)).2 found⟩
  have kept : ∑ t ∈ graph, tripleBackslashes t ≤
      ∑ t ∈ graph, tripleBackslashes (restoredTriple codec f t) :=
    calc
      _ = ∑ t ∈ graph, tripleBackslashes (renameTriple g t) :=
        Finset.sum_congr rfl fun t _ => (tripleBackslashes_renameTriple t).symm
      _ = ∑ t ∈ graph.image (renameTriple g), tripleBackslashes t :=
        (Finset.sum_image (renameTriple_injOn injective)).symm
      _ = ∑ t ∈ graph.image (restoredTriple codec f), tripleBackslashes t := by rw [images]
      _ ≤ _ := Finset.sum_image_le_of_nonneg fun _ _ => Nat.zero_le _
  omega

variable (cfg labelHash strict)

theorem Represents.restores (h : Represents codec node d st) (positive : 1 ≤ batchSize)
    (unique : st.UniqueIds) (ascii : KeepsAscii codec)
    (collisionFree : NoCollision codec
      (dumpEntries batchSize codec session generation ready dbOid node st))
    (none : ∀ t ∈ defaultGraph codec d st, NoLookalikeTriple t) :
    Restores batchSize cfg codec labelHash session generation strict ready dbOid d st := by
  obtain ⟨s, f, loaded, skipped, injective, graph⟩ :=
    h.loadDump cfg labelHash strict positive unique ascii collisionFree
  refine ⟨s, loaded, skipped, f, injective, graph.trans (Set.image_congr ?_)⟩
  rintro t ⟨q, visible, zero, subject, predicate, object⟩
  obtain ⟨noneS, noneP, noneO⟩ := none t ⟨q, visible, zero, subject, predicate, object⟩
  rw [restoredTriple, subject.restored_eq f noneS, predicate.restored_eq f noneP,
    object.restored_eq f noneO, renameTriple]

theorem Represents.not_restores (h : Represents codec node d st) (positive : 1 ≤ batchSize)
    (unique : st.UniqueIds) (ascii : KeepsAscii codec)
    (collisionFree : NoCollision codec
      (dumpEntries batchSize codec session generation ready dbOid node st))
    {t : Node × Node × Node} (ht : t ∈ defaultGraph codec d st) (found : ¬ NoLookalikeTriple t) :
    ¬ Restores batchSize cfg codec labelHash session generation strict ready dbOid d st := by
  obtain ⟨s, f, loaded, -, -, graph⟩ :=
    h.loadDump cfg labelHash strict positive unique ascii collisionFree
  have mem_defaultGraph := h.mem_defaultGraph positive unique
  rintro ⟨s', loaded', -, isomorphic⟩
  cases loaded.symm.trans loaded'
  have finite : defaultGraph codec d st = ((dumped batchSize node st).toFinset : Graph) := by
    ext t
    simp [mem_defaultGraph]
  rw [graph, finite] at isomorphic
  refine not_isomorphic_restored ?_ ?_ found isomorphic
  · simpa using h.encodable positive unique
  · simpa using (mem_defaultGraph t).mp ht

variable {cfg labelHash strict}

/-- The default graph is restored if and only if none of its literals has a backslash in
front of `n`, `r` or `t`. -/
theorem restores_iff (h : Represents codec node d st) (positive : 1 ≤ batchSize)
    (unique : st.UniqueIds) (ascii : KeepsAscii codec)
    (collisionFree : NoCollision codec
      (dumpEntries batchSize codec session generation ready dbOid node st)) :
    Restores batchSize cfg codec labelHash session generation strict ready dbOid d st ↔
      ∀ t ∈ defaultGraph codec d st, NoLookalikeTriple t := by
  constructor
  · intro restores t ht
    by_contra found
    exact h.not_restores cfg labelHash strict positive unique ascii collisionFree ht found restores
  · exact h.restores cfg labelHash strict positive unique ascii collisionFree

end Restore

/-- A codec that hashes short texts by their digits. -/
def pathCodec : Codec where
  chrono := Encoder.numericChrono
  termHash t _ := BitVec.ofNat 128 (t.foldl (fun n c => 256 * n + c.toNat) 0)
  quotedTripleHash s p o := BitVec.ofInt 128 (s + 256 * p + 65536 * o)
  normalize t := t

/-- The dictionary of the triple `<a> <p> "value"`. -/
def pathDict (value : Text) : Dict :=
  { Dict.initial false 0 with
    rows := ⟨[⟨1, 1, "a".toList, .iri, none, none, none⟩,
      ⟨2, 2, "p".toList, .iri, none, none, none⟩,
      ⟨3, 3, value, .literal, none, none, none⟩], by
        simp only [List.map_cons, List.map_nil]
        decide⟩
    nextId := 4 }

def pathNode (value : Text) (id : Int) : Node :=
  if id = 1 then .iri "a".toList else if id = 2 then .iri "p".toList
  else .literal value (xsd "string")

def pathStore : Store :=
  { Store.initial with rare := ⟨[⟨⟨1, 2, 3, 0⟩, 1, 0⟩], by decide⟩ }

theorem represents_path (value : Text) :
    Represents pathCodec (pathNode value) (pathDict value) pathStore := by
  have a : IriText "a".toList := iriText_of_all (by decide)
  have p : IriText "p".toList := iriText_of_all (by decide)
  have string : IriText (xsd "string") := iriText_of_all (by decide)
  rintro q (⟨dedicated, -⟩ | rare) -
  · cases dedicated
  · have same : q = ⟨1, 2, 3, 0⟩ := by simpa [UniqueTable.hasKey_iff, pathStore, eq_comm] using rare
    subst same
    simp only [List.forall_mem_cons, List.not_mem_nil, false_imp_iff, implies_true, and_true]
    exact ⟨⟨.iri rfl rfl rfl, a⟩, ⟨.iri rfl rfl rfl, p⟩, .literal rfl rfl, string⟩

theorem uniqueIds_pathStore : pathStore.UniqueIds := ⟨nofun, by decide⟩

theorem keepsAscii_pathCodec : KeepsAscii pathCodec := fun _ _ => rfl

/-- A path with slashes is restored. -/
theorem restores_path :
    Restores 100 ⟨1000, false, 0⟩ pathCodec (fun _ => 0) 0 0 true false 0
      (pathDict "C:/new".toList) pathStore := by
  refine (restores_iff (represents_path _) (by decide) uniqueIds_pathStore keepsAscii_pathCodec
    (by decide)).mpr ?_
  intro t ht
  have dumpedOnly :=
    (@Represents.mem_defaultGraph _ _ _ _ 100 (represents_path _)
      (by decide) uniqueIds_pathStore t).mp ht
  have single : dumped 100 (pathNode "C:/new".toList) pathStore =
    [(.iri "a".toList, .iri "p".toList, .literal "C:/new".toList (xsd "string"))] := by decide
  rw [single, List.mem_singleton] at dumpedOnly
  rw [dumpedOnly]
  refine ⟨trivial, trivial, ?_⟩
  have none : ['n', 'r', 't'].all (fun k => ¬ ['\\', k] <:+: "C:/new".toList) = true := by decide
  intro k hk
  exact of_decide_eq_true (List.all_eq_true.mp none k hk)

/-- A path with backslashes is not: its second part begins on a new line. -/
theorem not_restores_path :
    ¬ ∀ (batchSize : Nat) (cfg : Config) (codec : Codec) (labelHash : Text → Nat)
      (session : Session) (generation : Int) (strict ready : Bool) (dbOid : BitVec 32)
      (node : Int → Node) (d : Dict) (st : Store), Represents codec node d st →
      1 ≤ batchSize → st.UniqueIds → KeepsAscii codec →
      NoCollision codec (dumpEntries batchSize codec session generation ready dbOid node st) →
      Restores batchSize cfg codec labelHash session generation strict ready dbOid d st := by
  intro all
  have size : 1 ≤ 100 := by decide
  have unique := uniqueIds_pathStore
  have collisionFree : NoCollision pathCodec
      (dumpEntries 100 pathCodec 0 0 false 0 (pathNode "C:\\new".toList) pathStore) := by decide
  have represents := represents_path "C:\\new".toList
  have mem : (.iri "a".toList, .iri "p".toList, .literal "C:\\new".toList (xsd "string")) ∈
      defaultGraph pathCodec (pathDict "C:\\new".toList) pathStore := by
    rw [represents.mem_defaultGraph size unique]
    decide
  refine represents.not_restores ⟨1000, false, 0⟩ (fun _ => 0) true size unique
    keepsAscii_pathCodec collisionFree mem ?_
    (all _ _ _ _ _ _ _ _ _ _ _ _ represents size unique keepsAscii_pathCodec collisionFree)
  rintro ⟨-, -, none⟩
  exact none 'n' (by decide) (by decide)

end PgRipple.Transfer
