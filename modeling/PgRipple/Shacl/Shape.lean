import PgRipple.Dictionary.Term
import Mathlib.Data.List.Nodup

/-!
# Shapes

The form in which `load_shapes` returns what was parsed. A shape refers to others by
their IRIs, in its own constraints and in those of its property shapes; nothing requires
that the IRI names a shape.
-/

namespace PgRipple.Shacl

open Dictionary (Text)

/-- `ShapeTarget`. -/
inductive ShapeTarget where
  | ofClass (classIri : Text)
  | node (iris : List Text)
  | subjectsOf (predIri : Text)
  | objectsOf (predIri : Text)
  | none
  deriving DecidableEq

/-- `ShapeConstraint`. -/
inductive ShapeConstraint where
  | minCount (n : Int)
  | maxCount (n : Int)
  | datatype (dtIri : Text)
  | isIn (values : List Text)
  | pattern (regex : Text) (flags : Option Text)
  | ofClass (classIri : Text)
  | node (shapeIri : Text)
  | or (shapeIris : List Text)
  | and (shapeIris : List Text)
  | not (shapeIri : Text)
  | qualifiedValueShape (shapeIri : Text) (minCount maxCount : Option Int)
  | hasValue (value : Text)
  | nodeKind (kindIri : Text)
  | languageIn (tags : List Text)
  | uniqueLang
  | lessThan (otherPath : Text)
  | lessThanOrEquals (otherPath : Text)
  | greaterThan (otherPath : Text)
  | closed (ignoredProperties : List Text)
  | equals (otherPath : Text)
  | disjoint (otherPath : Text)
  | minLength (n : Int)
  | maxLength (n : Int)
  | xone (shapeIris : List Text)
  | minExclusive (bound : Text)
  | maxExclusive (bound : Text)
  | minInclusive (bound : Text)
  | maxInclusive (bound : Text)
  | sparqlConstraint (sparqlQuery : Text) (message : Option Text)
  | validFor (duration : Text)
  deriving DecidableEq

/-- `PropertyShape`; its own IRI is read nowhere. -/
structure PropertyShape where
  pathIri : Text
  constraints : List ShapeConstraint
  deriving DecidableEq

/-- `Shape`. -/
structure Shape where
  shapeIri : Text
  target : ShapeTarget
  constraints : List ShapeConstraint
  properties : List PropertyShape
  deactivated : Bool
  deriving DecidableEq

/-- The shapes that a constraint refers to. -/
def ShapeConstraint.references : ShapeConstraint → List Text
  | .node iri | .not iri | .qualifiedValueShape iri _ _ => [iri]
  | .or iris | .and iris | .xone iris => iris
  | _ => []

/-- The shapes that a shape refers to. -/
def Shape.references (shape : Shape) : List Text :=
  shape.constraints.flatMap ShapeConstraint.references ++
    shape.properties.flatMap fun ps => ps.constraints.flatMap ShapeConstraint.references

/-- The active rows of `_pg_ripple.shacl_shapes`, whose key is the IRI. -/
structure Shapes where
  list : List Shape
  unique : (list.map Shape.shapeIri).Nodup

namespace Shapes

/-- `all_shapes.iter().find(…)`. -/
def find (shapes : Shapes) (iri : Text) : Option Shape :=
  shapes.list.find? fun shape => shape.shapeIri = iri

/-- References go down in the rank, so none leads back. -/
def Acyclic (shapes : Shapes) (rank : Text → Nat) : Prop :=
  ∀ shape ∈ shapes.list, ∀ iri ∈ shape.references, rank iri < rank shape.shapeIri

theorem find_eq_some {shapes : Shapes} {iri : Text} {shape : Shape}
    (h : shapes.find iri = some shape) : shape ∈ shapes.list ∧ shape.shapeIri = iri :=
  ⟨List.mem_of_find?_eq_some h, by simpa using List.find?_some h⟩

theorem Acyclic.rank_lt {shapes : Shapes} {rank : Text → Nat} (acyclic : shapes.Acyclic rank)
    {iri ref : Text} {shape : Shape} (found : shapes.find iri = some shape)
    (refers : ref ∈ shape.references) : rank ref < rank iri := by
  obtain ⟨listed, rfl⟩ := find_eq_some found
  exact acyclic shape listed ref refers

end Shapes

section References

variable {shape : Shape} {c : ShapeConstraint} {iri : Text}

theorem Shape.mem_references_of_constraint (hc : c ∈ shape.constraints)
    (h : iri ∈ c.references) : iri ∈ shape.references :=
  List.mem_append_left _ (List.mem_flatMap.mpr ⟨c, hc, h⟩)

theorem Shape.mem_references_of_property {ps : PropertyShape} (hps : ps ∈ shape.properties)
    (hc : c ∈ ps.constraints) (h : iri ∈ c.references) : iri ∈ shape.references :=
  List.mem_append_right _ (List.mem_flatMap.mpr ⟨ps, hps, List.mem_flatMap.mpr ⟨c, hc, h⟩⟩)

end References

end PgRipple.Shacl
