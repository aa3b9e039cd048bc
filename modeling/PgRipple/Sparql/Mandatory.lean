import PgRipple.Shacl.Hints
import PgRipple.Sparql.BgpCorrect
import PgRipple.Sparql.LeftJoin

/-!
# `OPTIONAL` as an inner join

If a hint says of each predicate of an `OPTIONAL` block that a value exists, the block is
joined with an `INNER JOIN`. The rows of the `LEFT JOIN` that would have found nothing are
then missing. So the answers are the same just if each row on the left finds a match.

A match is certain if the left side binds the subjects of the block to focus nodes of the shapes
that ask for the values, and the block asks for nothing else.
-/

namespace PgRipple.Sparql

open Storage
open Dictionary (Text)

/-- `shacl_right_is_mandatory`, for a block that is a basic graph pattern; for any other it
is false. -/
def shaclRightIsMandatory (env : Env) (hints : Shacl.Hints)
    (patterns : List TriplePattern) : Bool :=
  !patterns.isEmpty && patterns.all fun tp =>
    match tp.predicate with
    | .namedNode nn => (env.lookupIri nn).any (Shacl.hasMinCount1 hints)
    | .var _ => false

/-- The answers of an `OPTIONAL`. -/
def optionalAnswers (ident : String → String) (env : Env) (mandatory : Bool) (n : Nat)
    (left right : Fragment) (expression : Option FilterExpr) (db : Db) :
    Option (Multiset (Mapping String TermId)) :=
  (translateLeftJoin ident env mandatory n left right expression).map fun frag =>
    frag.solutions db

/-- After any loads and drops of shapes, if the data conform and the block is taken to be
mandatory, both joins have the same answers. -/
def PromotionRight (shacl : Shacl.Env) (encode : Text → TermId) (steps : List Shacl.CatalogStep)
    (ident : String → String) (env : Env) (n : Nat) (left right : Fragment)
    (patterns : List TriplePattern) (expression : Option FilterExpr) (db : Db) : Prop :=
  Shacl.StoreConforms shacl db.store (Shacl.Catalog.run encode steps).shapes →
    shaclRightIsMandatory env (Shacl.Catalog.run encode steps).hints patterns = true →
      optionalAnswers ident env true n left right expression db =
        optionalAnswers ident env false n left right expression db

/-- Some row of the block passes the filter and has the values of the shared variables. -/
def HasMatch (left right : Fragment) (expression : Option FilterExpr) (db : Db)
    (l : Joined) : Prop :=
  ∃ r ∈ right.joined db, pushedFilter right expression db r = true ∧ Agree left right db l r

section Joins

variable {ident : String → String} {env : Env} {n : Nat} {left right : Fragment}
  {expression : Option FilterExpr} {db : Db}

theorem optionalPairs_true :
    optionalPairs ident env true left right expression db =
      (optionalPairs ident env false left right expression db).filter fun pair =>
        pair.2.isSome := rfl

theorem mem_optionalPairs_false_none {l : Joined}
    (hl : (left.vars.map (optionalColumn ident env "_lc_")).Nodup)
    (hr : (right.vars.map (optionalColumn ident env "_rc_")).Nodup) :
    (l, none) ∈ optionalPairs ident env false left right expression db ↔
      l ∈ left.joined db ∧ ¬ HasMatch left right expression db l := by
  show (l, none) ∈ OuterJoin.leftJoin _ _ _ ↔ _
  rw [OuterJoin.mem_leftJoin_none]
  refine and_congr_right fun _ => ?_
  constructor
  · rintro nobody ⟨r, hr', kept, agree⟩
    have off := nobody r (List.mem_filter.mpr ⟨hr', kept⟩)
    rw [(optionalOn_iff hl hr).mpr agree] at off
    cases off
  · intro nobody r mem
    obtain ⟨hr', kept⟩ := List.mem_filter.mp mem
    rw [Bool.eq_false_iff]
    intro on
    exact nobody ⟨r, hr', kept, (optionalOn_iff hl hr).mp on⟩

/-- No row is lost if no row stays without a partner. -/
theorem optionalPairs_eq_iff
    (hl : (left.vars.map (optionalColumn ident env "_lc_")).Nodup)
    (hr : (right.vars.map (optionalColumn ident env "_rc_")).Nodup) :
    (∀ pair ∈ optionalPairs ident env false left right expression db, pair.2.isSome = true) ↔
      ∀ l ∈ left.joined db, HasMatch left right expression db l := by
  constructor
  · intro found l memL
    by_contra nobody
    have alone := found (l, none) ((mem_optionalPairs_false_none hl hr).mpr ⟨memL, nobody⟩)
    cases alone
  · intro matched pair mem
    obtain ⟨l, r⟩ := pair
    cases r with
    | some r => rfl
    | none =>
      obtain ⟨memL, nobody⟩ := (mem_optionalPairs_false_none hl hr).mp mem
      exact absurd (matched l memL) nobody

/-- Both joins have the same answers just if each row on the left has a match. -/
theorem optionalAnswers_eq_iff :
    optionalAnswers ident env true n left right expression db =
        optionalAnswers ident env false n left right expression db ↔
      (OptionalColumnsApart ident env left right →
        ∀ l ∈ left.joined db, HasMatch left right expression db l) := by
  by_cases columns : OptionalColumnsApart ident env left right
  · obtain ⟨hl, hr, hlj⟩ := nodup_optionalColumns_iff.mpr columns
    have answers (mandatory : Bool) :
        optionalAnswers ident env mandatory n left right expression db =
          some (Multiset.ofList ((optionalPairs ident env mandatory left right expression db).map
            (pairSolution left right db))) := by
      rw [optionalAnswers, translateLeftJoin, if_pos ⟨hl, hr, hlj⟩, Option.map_some,
        solutions_optionalSubquery hl hr hlj]
    rw [answers, answers, Option.some.injEq, imp_iff_right columns, ← optionalPairs_eq_iff hl hr,
      optionalPairs_true]
    constructor
    · intro same
      have rows := congrArg Multiset.card same
      rw [Multiset.coe_card, Multiset.coe_card, List.length_map, List.length_map] at rows
      exact List.length_filter_eq_length_iff.mp rows
    · intro found
      rw [List.filter_eq_self.mpr found]
  · have refused : ¬ ((left.vars.map (optionalColumn ident env "_lc_")).Nodup ∧
        (right.vars.map (optionalColumn ident env "_rc_")).Nodup ∧
        ((left.vars ++ rightOnly left right).map (optionalColumn ident env "_lj_")).Nodup) :=
      fun distinct => columns (nodup_optionalColumns_iff.mp distinct)
    have answers (mandatory : Bool) :
        optionalAnswers ident env mandatory n left right expression db = none := by
      rw [optionalAnswers, translateLeftJoin, if_neg refused, Option.map_none]
    rw [answers, answers]
    exact iff_of_true rfl fun apart => absurd apart columns

end Joins

/-- The block asks for new variables of subjects that the left side binds, and active shapes ask
for each of the values in the graphs that the block reads. -/
structure Targeted (shacl : Shacl.Env) (shapes : Shacl.Shapes) (env : Env)
    (graphFilter : Option TermId) (left : Fragment) (patterns : List TriplePattern) (db : Db) :
    Prop where
  object : ∀ tp ∈ patterns, ∃ y ∉ left.names, tp.object = .var y
  /-- No variable is asked for twice. -/
  fresh : ∀ tp ∈ patterns, ∀ tp' ∈ patterns, tp.object = tp'.object → tp = tp'
  required : ∀ tp ∈ patterns, ∃ x ∈ left.names, tp.subject = .var x ∧
    ∃ iri p, tp.predicate = .namedNode iri ∧ env.lookupIri iri = some p ∧
      ∀ l ∈ left.joined db, ∃ node, left.value db l x = some node ∧
        Shacl.Requires shacl db.store shapes
          (fun g => graphCondition graphFilter (env.serviceExcl graphFilter) g = true) node p

section Targeted

variable {shacl : Shacl.Env} {shapes : Shacl.Shapes} {env : Env} {graphFilter : Option TermId}
  {left right : Fragment} {patterns : List TriplePattern} {db : Db} {l : Joined}

theorem Targeted.plain (h : Targeted shacl shapes env graphFilter left patterns db) :
    ∀ tp ∈ patterns, tp.Plain := by
  intro tp htp
  obtain ⟨y, -, object⟩ := h.object tp htp
  obtain ⟨x, -, subject, -⟩ := h.required tp htp
  rw [TriplePattern.Plain, subject, object]
  exact ⟨nofun, nofun⟩

/-- Only variables occur, and they keep their names. -/
theorem Targeted.exists_var (h : Targeted shacl shapes env graphFilter left patterns db)
    {y : Slot} (hy : y ∈ slotsOf patterns) : ∃ v, y = .var v := by
  rw [slotsOf, List.mem_dedup, List.mem_flatMap] at hy
  obtain ⟨tp, htp, hy⟩ := hy
  obtain ⟨o, -, object⟩ := h.object tp htp
  obtain ⟨x, -, subject, iri, p, predicate, -⟩ := h.required tp htp
  simp only [TriplePattern.slots, subject, object, predicate, TermPattern.slot?,
    NamedNodePattern.slot?, Option.toList_some, Option.toList_none, List.append_nil,
    List.cons_append, List.nil_append, List.mem_cons, List.not_mem_nil, or_false] at hy
  obtain rfl | rfl := hy
  · exact ⟨x, rfl⟩
  · exact ⟨o, rfl⟩

/-- What a row on the left binds extends to a solution of the block. -/
theorem Targeted.exists_solution (h : Targeted shacl shapes env graphFilter left patterns db)
    (conforms : Shacl.StoreConforms shacl db.store shapes) (hl : l ∈ left.joined db) :
    ∃ μ : Slot → TermId, Solution env db.store graphFilter patterns μ ∧
      ∀ y ∈ slotsOf patterns, y.name env ∈ left.names →
        left.value db l (y.name env) = some (μ y) := by
  have values (tp : TriplePattern) (htp : tp ∈ patterns) : ∃ o, ∀ x, tp.subject = .var x →
      ∃ node p, left.value db l x = some node ∧ tp.predicate.denote env (fun _ => 0) = some p ∧
        HasTriple env db.store graphFilter node p o := by
    obtain ⟨x, -, subject, iri, p, predicate, hp, required⟩ := h.required tp htp
    obtain ⟨node, bound, required⟩ := required l hl
    obtain ⟨o, g, asked, visible⟩ := required.exists_value conforms
    refine ⟨o, ?_⟩
    intro x' subject'
    cases subject.symm.trans subject'
    exact ⟨node, p, bound, by rw [predicate]; exact hp, g, asked, visible⟩
  choose! value hvalue using values
  -- a variable of the left keeps its value, any other is the object of one pattern
  let μ : Slot → TermId
    | .blank _ => 0
    | .var v =>
      if v ∈ left.names then (left.value db l v).getD 0
      else ((patterns.find? fun tp => tp.object = .var v).map value).getD 0
  refine ⟨μ, ?_, ?_⟩
  · intro tp htp
    obtain ⟨y, new, object⟩ := h.object tp htp
    obtain ⟨x, old, subject, iri, p, predicate, hp, required⟩ := h.required tp htp
    obtain ⟨node, p', bound, denotes, triple⟩ := hvalue tp htp x subject
    rw [predicate] at denotes
    have first : patterns.find? (fun tp => tp.object = .var y) = some tp := by
      cases found : patterns.find? (fun tp => tp.object = .var y) with
      | none => exact absurd object (by simpa using List.find?_eq_none.mp found tp htp)
      | some tp' =>
        have same : tp'.object = .var y := by simpa using List.find?_some found
        rw [h.fresh tp' (List.mem_of_find?_eq_some found) tp htp (same.trans object.symm)]
    refine ⟨node, p', value tp, ?_, ?_, ?_, triple⟩
    · simp [subject, TermPattern.denote, μ, old, bound]
    · rw [predicate]
      exact denotes
    · simp [object, TermPattern.denote, μ, new, first]
  · intro y hy shared
    obtain ⟨v, rfl⟩ := h.exists_var hy
    rw [slotsOf, List.mem_dedup, List.mem_flatMap] at hy
    obtain ⟨tp, htp, hy⟩ := hy
    obtain ⟨o, new, object⟩ := h.object tp htp
    obtain ⟨x, old, subject, iri, p, predicate, hp, required⟩ := h.required tp htp
    simp only [TriplePattern.slots, subject, object, predicate, TermPattern.slot?,
      NamedNodePattern.slot?, Option.toList_some, Option.toList_none, List.append_nil,
      List.cons_append, List.nil_append, List.mem_cons, List.not_mem_nil, or_false] at hy
    obtain same | same := hy
    · cases same
      obtain ⟨node, bound, -⟩ := required l hl
      simp [Slot.name, μ, old, bound]
    · cases same
      exact absurd shared new

/-- So each row on the left has a match in the block. -/
theorem Targeted.hasMatch {κ : Type} [LT κ] [DecidableLT κ] {bgpReorder : Bool}
    {estimate : PatternCost κ} {m m' : Nat}
    (h : Targeted shacl shapes env graphFilter left patterns db)
    (conforms : Shacl.StoreConforms shacl db.store shapes) (catalog : CatalogRight env db.store)
    (translated : translateBgp env bgpReorder estimate graphFilter m patterns = some (right, m'))
    (hl : l ∈ left.joined db) : HasMatch left right none db l := by
  obtain ⟨placed, translates, covers⟩ := translates_of_translateBgp h.plain translated
  have names : NamesDistinct env patterns := by
    intro y hy y' hy' same
    obtain ⟨v, rfl⟩ := h.exists_var hy
    obtain ⟨v', rfl⟩ := h.exists_var hy'
    exact congrArg Slot.var same
  obtain ⟨μ, solution, extends_⟩ := h.exists_solution conforms hl
  obtain ⟨r, hr, values⟩ : ∃ r ∈ right.joined db,
      ∀ y ∈ slotsOf patterns, right.value db r (y.name env) = some (μ y) := by
    have mem := (translates.mem_slotValues covers catalog names).mpr ⟨μ, rfl, solution⟩
    obtain ⟨r, hr, same⟩ := List.mem_map.mp mem
    exact ⟨r, hr, List.map_inj_left.mp same⟩
  refine ⟨r, hr, rfl, ?_⟩
  intro v shared asked
  obtain ⟨y, hy, rfl⟩ : ∃ y ∈ slotsOf patterns, y.name env = v := by
    have bound : (right.bindings.lookup v).isSome = true := by
      rw [Option.isSome_iff_ne_none, ne_eq, Fragment.lookup_eq_none_iff, not_not]
      exact asked
    obtain ⟨o, ho, slot⟩ := translates.binds.bound v bound
    obtain ⟨y, hy, same⟩ := Option.map_eq_some_iff.mp slot
    exact ⟨y, (mem_slotsOf_iff covers).mpr ⟨o, ho, hy⟩, same⟩
  rw [extends_ y hy shared, values y hy]
  exact ⟨nofun, rfl⟩

end Targeted

/-- A shape that asks for a value of `p`, for the instances of a class. -/
def requiringShape : Shacl.Shape where
  shapeIri := "S".toList
  target := .ofClass "q".toList
  constraints := []
  properties := [⟨"p".toList, [.minCount 1]⟩]
  deactivated := false

/-- The dictionary knows three IRIs. -/
def knownIri (iri : String) : Option TermId :=
  if iri = "a" then some 1 else if iri = "p" then some 2 else if iri = "q" then some 3 else none

def knownEnv : Env := { oneIri with lookupIri := knownIri }

def knownShacl : Shacl.Env :=
  { Shacl.sampleEnv with
    terms := { Shacl.sampleEnv.terms with lookupIri := fun iri => knownIri (String.ofList iri) } }

/-- The shape gets the next id. -/
def encodeKnown (iri : Text) : TermId := (knownIri (String.ofList iri)).getD 4

/-- The same for the node `<a>`. -/
def requiringNode : Shacl.Shape := { requiringShape with target := .node ["a".toList] }

/-- One triple `<a> <p> <q>`. -/
def oneValue : Store := (Store.insertEncodedTriple 0 ⟨1, 2, 3, 0⟩ .initial).2

def oneValueEnv : Env :=
  { knownEnv with vpSource := catalogSource oneValue, unionPredicates := some [] }

end PgRipple.Sparql
