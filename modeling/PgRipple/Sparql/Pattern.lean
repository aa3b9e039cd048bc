import PgRipple.Storage.Store
import Mathlib.Data.Nat.Pairing
import Mathlib.Logic.Equiv.Nat

/-!
# Patterns and templates

The parts of the parsed SPARQL algebra that more than one translator reads: terms with
variables, triple patterns, and the templates of an update. Ids of terms come from the
dictionary, which hands out an id when a term is first encoded and never changes it, so
a translator only needs to know which id a term has or will get.
-/

namespace PgRipple.Sparql

open Storage

/-- `Literal`. -/
structure Literal where
  value : String
  datatype : String
  language : Option String
  deriving DecidableEq, Repr

/-- `NamedNodePattern`. -/
inductive NamedNodePattern where
  | namedNode (iri : String)
  | var (v : String)
  deriving DecidableEq, Repr

/-- `TermPattern`. -/
inductive TermPattern where
  | namedNode (iri : String)
  | blankNode (label : String)
  | literal (lit : Literal)
  | triple (subject : TermPattern) (predicate : NamedNodePattern) (object : TermPattern)
  | var (v : String)
  deriving DecidableEq, Repr

/-- `TriplePattern`. -/
structure TriplePattern where
  subject : TermPattern
  predicate : NamedNodePattern
  object : TermPattern
  deriving DecidableEq, Repr

/-- `GroundTermPattern`: a term pattern without blank nodes. -/
inductive GroundTermPattern where
  | namedNode (iri : String)
  | literal (lit : Literal)
  | triple (subject : GroundTermPattern) (predicate : NamedNodePattern)
      (object : GroundTermPattern)
  | var (v : String)
  deriving DecidableEq, Repr

/-- `GraphNamePattern`. -/
inductive GraphNamePattern where
  | namedNode (iri : String)
  | defaultGraph
  | var (v : String)
  deriving DecidableEq, Repr

/-- `QuadPattern`, with insert templates over `TermPattern` and delete templates over
`GroundTermPattern`. -/
structure QuadPattern (τ : Type) where
  subject : τ
  predicate : NamedNodePattern
  object : τ
  graphName : GraphNamePattern
  deriving DecidableEq, Repr

/-- The id that each term has, or gets when it is first encoded. A quoted triple is
stored by the ids of its components. -/
structure TermIds where
  iri : String → TermId
  blank : String → TermId
  literal : Literal → TermId
  quoted : TermId → TermId → TermId → TermId
  quoted_inj : ∀ {s p o s' p' o'}, quoted s p o = quoted s' p' o' → s = s' ∧ p = p' ∧ o = o'
  iri_ne_quoted : ∀ x s p o, iri x ≠ quoted s p o
  blank_ne_quoted : ∀ x s p o, blank x ≠ quoted s p o
  literal_ne_quoted : ∀ x s p o, literal x ≠ quoted s p o

/-- A number for each triple of ids. -/
def tripleCode (s p o : Int) : Nat :=
  Nat.pair (Equiv.intEquivNat s) (Nat.pair (Equiv.intEquivNat p) (Equiv.intEquivNat o))

theorem tripleCode_inj {s p o s' p' o' : Int} (same : tripleCode s p o = tripleCode s' p' o') :
    s = s' ∧ p = p' ∧ o = o' := by
  simpa [tripleCode] using same

/-- Ids by length, with negative ids for quoted triples. -/
def idsByLength : TermIds where
  iri x := x.length
  blank x := x.length
  literal x := x.value.length
  quoted s p o := Int.negSucc (tripleCode s p o)
  quoted_inj same := tripleCode_inj (Int.negSucc.inj same)
  iri_ne_quoted _ _ _ _ same := nomatch same
  blank_ne_quoted _ _ _ _ same := nomatch same
  literal_ne_quoted _ _ _ _ same := nomatch same

/-- The quoted triples that the dictionary has a row for. -/
abbrev QuotedRows := List (TermId × TermId × TermId)

/-- The id is not the future id of a quoted triple without a row. -/
def TermIds.Known (ids : TermIds) (rows : QuotedRows) (id : TermId) : Prop :=
  ∀ s p o, ids.quoted s p o = id → (s, p, o) ∈ rows

theorem TermIds.Known.mono {ids : TermIds} {rows rows' : QuotedRows} {id : TermId}
    (h : ids.Known rows id) (more : rows ⊆ rows') : ids.Known rows' id := by
  intro s p o same
  exact more (h s p o same)

/-- A row of a result: the value of each variable, in the order of the variables. -/
abbrev ResultRow := List (Option TermId)

/-- `var_index.get(v)` and then the cell. -/
def ResultRow.get? (vars : List String) (row : ResultRow) (v : String) : Option TermId := do
  let i ← vars.idxOf? v
  (← row[i]?)

end PgRipple.Sparql
