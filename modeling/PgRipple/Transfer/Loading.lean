import PgRipple.Transfer.Reading
import PgRipple.Storage.Insert

/-!
# Loading a dump

Every line of a dump is read, and the triple it gives is stored in one of the batches.
Which batch, and whether its predicate is promoted afterwards, makes no difference to what
is visible.
-/

namespace PgRipple.Transfer

open Storage Dictionary

/-- What a reader sees once the pending triples are stored. -/
def LoadState.Holds (s : LoadState) (q : Quad) : Prop :=
  s.store.Visible q ∨ ∃ x ∈ s.byPredicate, q.p = x.1 ∧ q.key ∈ x.2

/-- A load that adds some quads. -/
structure Loads (s : LoadState) (quads : List Quad) (d : Dict) (s' : LoadState) : Prop where
  dict : s'.dict = d
  skipped : s'.skipped = s.skipped
  layout : s'.store.Layout
  holds : ∀ q, s'.Holds q ↔ s.Holds q ∨ q ∈ quads

section Batches

variable {session : Session} {st : Store} {s s' s'' : LoadState} {quads quads' : List Quad}
  {d d' : Dict}

theorem Loads.trans (h : Loads s quads d s') (h' : Loads s' quads' d' s'') :
    Loads s (quads ++ quads') d' s'' where
  dict := h'.dict
  skipped := h'.skipped.trans h.skipped
  layout := h'.layout
  holds q := by rw [h'.holds, h.holds, List.mem_append, or_assoc]

theorem exists_mem_addTriple {p : TermId} {k : Key} {groups : List (TermId × List Key)} {q : Quad} :
    (∃ x ∈ addTriple p k groups, q.p = x.1 ∧ q.key ∈ x.2) ↔
      (∃ x ∈ groups, q.p = x.1 ∧ q.key ∈ x.2) ∨ q = k.quad p := by
  have named : q.p = p ∧ q.key = k ↔ q = k.quad p := by
    constructor
    · rintro ⟨rfl, rfl⟩
      rfl
    · rintro rfl
      exact ⟨rfl, rfl⟩
  induction groups with
  | nil => simp [addTriple, named]
  | cons x rest ih =>
    obtain ⟨p', keys⟩ := x
    rw [addTriple]
    split
    · rename_i same
      subst same
      simp only [List.exists_mem_cons_iff, List.mem_append, List.mem_singleton, ← named,
        and_or_left]
      exact or_right_comm
    · rw [List.exists_mem_cons_iff, List.exists_mem_cons_iff, or_assoc]
      exact or_congr_right ih

theorem visible_flush (h : st.Layout) (groups : List (TermId × List Key)) :
    (groups.foldl (fun st x => (st.batchInsertEncoded session x.1 x.2).2) st).Layout ∧
      ∀ q, (groups.foldl (fun st x => (st.batchInsertEncoded session x.1 x.2).2) st).Visible q ↔
        st.Visible q ∨ ∃ x ∈ groups, q.p = x.1 ∧ q.key ∈ x.2 := by
  induction groups generalizing st with
  | nil => exact ⟨h, fun q => by simp⟩
  | cons x rest ih =>
    obtain ⟨layout, visible⟩ := ih h.batchInsertEncoded
    refine ⟨layout, fun q => ?_⟩
    rw [List.foldl_cons, visible, h.visible_batchInsertEncoded, List.exists_mem_cons_iff, or_assoc]

theorem loads_flushBatch (session : Session) (h : s.store.Layout) :
    Loads s [] s.dict (s.flushBatch session) := by
  obtain ⟨layout, visible⟩ := visible_flush h s.byPredicate
  refine ⟨rfl, rfl, layout, fun q => ?_⟩
  simp only [LoadState.Holds, LoadState.flushBatch, visible, List.not_mem_nil, false_and,
    exists_false, or_false]

theorem visible_promoteRarePredicates (h : st.Layout) (cfg : Config) (q : Quad) :
    (promoteRarePredicates cfg st).Visible q ↔ st.Visible q := by
  rw [promoteRarePredicates]
  generalize List.filter _ _ = preds
  induction preds generalizing st with
  | nil => exact Iff.rfl
  | cons p rest ih => exact (ih h.promotePredicate).trans (h.visible_promotePredicate q)

end Batches

theorem lines_line {line : Text} (whole : '\n' ∉ line) (rest : Text) :
    lines (line ++ '\n' :: rest) = line :: lines rest := by
  induction line with
  | nil => simp [lines]
  | cons c cs ih =>
    rw [List.mem_cons, not_or] at whole
    rw [List.cons_append, lines, if_neg (Ne.symm whole.1), ih whole.2]

theorem lines_flatMap {α : Type} (write : α → Text) (items : List α)
    (whole : ∀ x ∈ items, '\n' ∉ write x) :
    lines (items.flatMap fun x => write x ++ ['\n']) = items.map write := by
  induction items with
  | nil => rfl
  | cons x rest ih =>
    rw [List.flatMap_cons, List.append_assoc, List.singleton_append,
      lines_line (whole x List.mem_cons_self), ih fun y hy => whole y (List.mem_cons_of_mem x hy),
      List.map_cons]

section Load

variable (codec : Codec) (session : Session) (generation : Int)

/-- The three terms of a line, in the order in which they are encoded. -/
def tripleTerms (t : Node × Node × Node) : List RdfTerm :=
  [t.1.toRdf generation, t.2.1.toRdf generation, t.2.2.toRdf generation]

/-- The ids of a line. -/
def loadedQuad (t : Node × Node × Node) (d : Dict) : Quad :=
  let r := d.encodeRdfTerm codec session (t.1.toRdf generation)
  let r' := r.2.encodeRdfTerm codec session (t.2.1.toRdf generation)
  let r'' := r'.2.encodeRdfTerm codec session (t.2.2.toRdf generation)
  ⟨r.1, r'.1, r''.1, 0⟩

def loadedQuads : List (Node × Node × Node) → Dict → List Quad
  | [], _ => []
  | t :: triples, d =>
    loadedQuad codec session generation t d ::
      loadedQuads triples (encodeAll codec session (tripleTerms generation t) d)

/-- A triple with the text that is written for it. -/
structure WrittenLine (t : Node × Node × Node) (line : Text) : Prop where
  texts : ∃ ts tp to', Writes t.1 ts ∧ Writes t.2.1 tp ∧ Writes t.2.2 to' ∧
    line = lineText ts tp to'
  subject : t.1.WellFormed
  predicate : t.2.1.WellFormed
  object : t.2.2.WellFormed

end Load

section Load

variable {codec : Codec} {session : Session} {generation : Int} {t : Node × Node × Node}
  {line : Text} {s : LoadState}

theorem WrittenLine.newline_not_mem (h : WrittenLine t line) : '\n' ∉ line := by
  obtain ⟨ts, tp, to', subject, predicate, object, rfl⟩ := h.texts
  have hs := subject.newline_not_mem h.subject
  have hp := predicate.newline_not_mem h.predicate
  have ho := object.newline_not_mem h.object
  simp [lineText, hs, hp, ho]

theorem WrittenLine.loadLine (h : WrittenLine t line) (strict : Bool) (layout : s.store.Layout) :
    ∃ s', loadLine codec session generation strict s line = some s' ∧
      Loads s [loadedQuad codec session generation t s.dict]
        (encodeAll codec session (tripleTerms generation t) s.dict) s' := by
  obtain ⟨ts, tp, to', subject, predicate, object, rfl⟩ := h.texts
  have present : ¬ (lineText ts tp to' = [] ∨ (lineText ts tp to').head? = some '#') := by
    obtain ⟨c, cs, rfl, -, noComment⟩ := subject.head
    simp [lineText, noComment]
  let d := encodeAll codec session (tripleTerms generation t) s.dict
  let q := loadedQuad codec session generation t s.dict
  let added : LoadState := { s with
    dict := d, byPredicate := addTriple q.p q.key s.byPredicate, total := s.total + 1 }
  have loaded : Transfer.loadLine codec session generation strict s (lineText ts tp to') =
      some (if added.total % batchSize = 0 then added.flushBatch session else added) := by
    rw [Transfer.loadLine, trim_lineText subject]
    simp only [if_neg present,
      parse_lineText subject predicate object h.subject h.predicate h.object]
    rfl
  have adds : Loads s [q] d added := by
    refine ⟨rfl, rfl, layout, fun q' => ?_⟩
    have pending : (∃ x ∈ added.byPredicate, q'.p = x.1 ∧ q'.key ∈ x.2) ↔
        (∃ x ∈ s.byPredicate, q'.p = x.1 ∧ q'.key ∈ x.2) ∨ q' = q := exists_mem_addTriple
    rw [LoadState.Holds, pending, LoadState.Holds, or_assoc, List.mem_singleton]
  refine ⟨_, loaded, ?_⟩
  split
  · exact adds.trans (loads_flushBatch session layout)
  · exact adds

theorem foldlM_loadLine (codec : Codec) (session : Session) (generation : Int)
    {triples : List (Node × Node × Node)} {texts : List Text} (strict : Bool)
    (written : List.Forall₂ WrittenLine triples texts) (layout : s.store.Layout) :
    ∃ s', texts.foldlM (loadLine codec session generation strict) s = some s' ∧
      Loads s (loadedQuads codec session generation triples s.dict)
        (encodeAll codec session (triples.flatMap (tripleTerms generation)) s.dict) s' := by
  induction written generalizing s with
  | nil => exact ⟨s, rfl, rfl, rfl, layout, fun q => by simp [loadedQuads]⟩
  | @cons t line triples texts here _ ih =>
    obtain ⟨s₁, first, loads⟩ := here.loadLine strict layout
    obtain ⟨s₂, rest, loads'⟩ := ih loads.layout
    refine ⟨s₂, ?_, ?_⟩
    · rw [List.foldlM_cons, first]
      exact rest
    · rw [loads.dict] at loads'
      rw [List.flatMap_cons, encodeAll, List.foldl_append]
      exact loads.trans loads'

theorem exists_loadNtriples (cfg : Config) (codec : Codec) (session : Session) (generation : Int)
    (strict : Bool) {triples : List (Node × Node × Node)} {data : Text} {st : Store}
    (written : List.Forall₂ WrittenLine triples (lines data)) (layout : st.Layout) (d : Dict) :
    ∃ s, loadNtriples cfg codec session generation strict data d st = some s ∧
      s.dict = encodeAll codec session (triples.flatMap (tripleTerms generation)) d ∧
      s.skipped = 0 ∧ ∀ q, s.store.Visible q ↔
        st.Visible q ∨ q ∈ loadedQuads codec session generation triples d := by
  let s₀ : LoadState := ⟨d, st, [], 0, 0⟩
  have empty : s₀.store.Layout := layout
  obtain ⟨s, folded, loads⟩ := foldlM_loadLine codec session generation strict written empty
  have flushed := loads.trans (loads_flushBatch session loads.layout)
  let s' := s.flushBatch session
  refine ⟨{ s' with store := promoteRarePredicates cfg s'.store }, ?_, loads.dict,
    loads.skipped, ?_⟩
  · rw [loadNtriples, folded]
    rfl
  · intro q
    rw [visible_promoteRarePredicates flushed.layout]
    have holds := flushed.holds q
    simpa [LoadState.Holds, LoadState.flushBatch, s₀] using holds

end Load

end PgRipple.Transfer
