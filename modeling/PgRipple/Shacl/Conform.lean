import PgRipple.Shacl.Check

/-!
# Conformance and reports

`node_conforms_to_shape` answers whether a node conforms to a shape; `run_validate`
reports what the focus nodes of a shape violate. Both look at the constraints of the
shape itself and then at its property shapes, which they validate by the same function.
A value of a property is asked again whether it conforms, from depth zero, so only the
nesting of `sh:or`, `sh:and` and `sh:not` on shapes counts towards the limit of 32.

The recursion is over fuel, because circular references need not end.
-/

namespace PgRipple.Shacl

open Storage
open Dictionary (Text)

/-- `node_satisfies_constraint`. -/
def nodeSatisfiesConstraint (conforms : TermId → Text → Option Bool) (nodeId : TermId) :
    ShapeConstraint → Option Bool
  | .or shapeIris => shapeIris.anyM (conforms nodeId)
  | .and shapeIris => shapeIris.allM (conforms nodeId)
  | .not shapeIri => Partial.negate (conforms nodeId) shapeIri
  | _ => some true

section Validator

variable (env : Env) (st : Store) (shapes : Shapes) (graphId : TermId)

/-- `node_conforms_to_shape_depth`. -/
def nodeConformsToShapeDepth : (fuel depth : Nat) → TermId → Text → Option Bool
  | 0, _, _, _ => none
  | fuel + 1, depth, nodeId, shapeIri =>
    if depth > 32 then some true
    else
      match shapes.find shapeIri with
      | none => some true
      | some shape =>
        if shape.deactivated then some true
        else
          (shape.constraints.allM
            (nodeSatisfiesConstraint (nodeConformsToShapeDepth fuel (depth + 1)) nodeId)).bind
              fun ok =>
                if ok then
                  shape.properties.allM fun ps =>
                    (validatePropertyShape env st (nodeConformsToShapeDepth fuel 0) ps [nodeId]
                      graphId shapeIri).map List.isEmpty
                else some false

def nodeConformsToShape (fuel : Nat) (nodeId : TermId) (shapeIri : Text) : Option Bool :=
  nodeConformsToShapeDepth env st shapes graphId fuel 0 nodeId shapeIri

/-- A violation of the shape itself. -/
def focusViolation (shape : Shape) (focus : TermId) (constraint : Component)
    (message : Message) : Violation :=
  ⟨focusName env focus, shape.shapeIri, none, constraint, message, none⟩

/-- What a constraint of the shape itself reports at a focus node. -/
def nodeViolations (fuel : Nat) (shape : Shape) (c : ShapeConstraint) (focus : TermId) :
    Option (List Violation) :=
  match c with
  | .or shapeIris =>
    (shapeIris.anyM (nodeConformsToShape env st shapes graphId fuel focus)).map fun ok =>
      if ok then [] else [focusViolation env shape focus .or (.focus none)]
  | .and shapeIris =>
    (Partial.filter (Partial.negate (nodeConformsToShape env st shapes graphId fuel focus))
      shapeIris).map fun failed =>
        failed.map fun s => focusViolation env shape focus .and (.focus (some s))
  | .not refShapeIri =>
    (nodeConformsToShape env st shapes graphId fuel focus refShapeIri).map fun ok =>
      if ok then [focusViolation env shape focus .not (.focus (some refShapeIri))] else []
  | _ => some []

/-- The reports of one shape, `sh:closed` left aside. -/
def openViolations (fuel : Nat) (shape : Shape) (focusNodes : List TermId) :
    Option (List Violation) :=
  ((shape.constraints.mapM fun c =>
    (focusNodes.mapM (nodeViolations env st shapes graphId fuel shape c)).map
      List.flatten).map List.flatten).bind fun logical =>
  ((shape.properties.mapM fun ps =>
    validatePropertyShape env st (nodeConformsToShape env st shapes graphId fuel) ps focusNodes
      graphId shape.shapeIri).map List.flatten).map fun properties => logical ++ properties

/-- The properties that the first `sh:closed` of a shape lets pass besides the declared. -/
def closedIgnores (shape : Shape) : Option (List Text) :=
  shape.constraints.findSome? fun
    | .closed ignoredProperties => some ignoredProperties
    | _ => none

def closedViolations (shape : Shape) (focusNodes : List TermId) : List Violation :=
  match closedIgnores shape with
  | none => []
  | some ignored =>
    let allowed := shape.properties.map PropertyShape.pathIri ++ rdfType :: ignored
    focusNodes.flatMap fun focus =>
      ((getAllPredicateIrisForNode env st focus graphId).filter (· ∉ allowed)).map fun predIri =>
        focusViolation env shape focus .closed (.undeclared predIri)

/-- The body of the loop over the shapes. -/
def validateShape (fuel : Nat) (shape : Shape) (focusNodes : List TermId) :
    Option (List Violation) :=
  if shape.deactivated then some []
  else
    (openViolations env st shapes graphId fuel shape focusNodes).map
      (· ++ closedViolations env st graphId shape focusNodes)

/-- `run_validate`, for a graph that has been resolved; the data conform if nothing is
reported. -/
def runValidate (fuel : Nat) : Option (List Violation) :=
  (shapes.list.mapM fun shape =>
    validateShape env st shapes graphId fuel shape
      (collectFocusNodes env st shape.target graphId)).map List.flatten

/-- What `run_validate` reports of a shape whose only target is one node. -/
def reportOf (fuel : Nat) (nodeId : TermId) (shapeIri : Text) : Option (List Violation) :=
  match shapes.find shapeIri with
  | none => some []
  | some shape => validateShape env st shapes graphId fuel shape [nodeId]

end Validator

section Fuel

variable {env : Env} {st : Store} {shapes : Shapes} {graphId : TermId} {fuel depth : Nat}
  {nodeId : TermId} {iri : Text}

theorem isSome_nodeSatisfiesConstraint {conforms : TermId → Text → Option Bool}
    {c : ShapeConstraint} (h : ∀ iri ∈ c.references, (conforms nodeId iri).isSome = true) :
    (nodeSatisfiesConstraint conforms nodeId c).isSome = true := by
  cases c with
  | or iris => exact Partial.isSome_anyM h
  | and iris => exact Partial.isSome_allM h
  | not iri =>
    rw [nodeSatisfiesConstraint, Partial.negate, Option.isSome_map]
    exact h iri List.mem_cons_self
  | _ => rfl

theorem below_nodeSatisfiesConstraint {conforms conforms' : TermId → Text → Option Bool}
    {c : ShapeConstraint} (h : ∀ v iri, Partial.Below (conforms v iri) (conforms' v iri)) :
    Partial.Below (nodeSatisfiesConstraint conforms nodeId c)
      (nodeSatisfiesConstraint conforms' nodeId c) := by
  cases c with
  | or iris => exact Partial.below_anyM (h nodeId)
  | and iris => exact Partial.below_allM (h nodeId)
  | not iri => exact Partial.below_negate (h nodeId) iri
  | _ => exact .refl _

/-- Without circular references, fuel above the rank of a shape is enough. -/
theorem isSome_nodeConformsToShapeDepth {rank : Text → Nat} (acyclic : shapes.Acyclic rank)
    (enough : rank iri < fuel) :
    (nodeConformsToShapeDepth env st shapes graphId fuel depth nodeId iri).isSome = true := by
  induction fuel generalizing depth nodeId iri with
  | zero => omega
  | succ fuel ih =>
    rw [nodeConformsToShapeDepth]
    split
    · rfl
    split
    · rfl
    rename_i shape found
    split
    · rfl
    -- Each shape that is asked about next has a smaller rank.
    have next (ref : Text) (refers : ref ∈ shape.references) : rank ref < fuel := by
      have := acyclic.rank_lt found refers
      omega
    have logical : (shape.constraints.allM (nodeSatisfiesConstraint
        (nodeConformsToShapeDepth env st shapes graphId fuel (depth + 1)) nodeId)).isSome =
          true := by
      refine Partial.isSome_allM fun c hc => isSome_nodeSatisfiesConstraint fun ref href => ?_
      exact ih (next ref (shape.mem_references_of_constraint hc href))
    obtain ⟨ok, hok⟩ := Option.isSome_iff_exists.mp logical
    rw [hok, Option.bind_some]
    cases ok with
    | false => rfl
    | true =>
      refine Partial.isSome_allM fun ps hps => ?_
      rw [Option.isSome_map]
      refine isSome_validatePropertyShape fun v c hc ref href => ?_
      exact ih (next ref (shape.mem_references_of_property hps hc href))

end Fuel

@[simp] theorem map_isEmpty_eq_true_iff {α : Type*} {x : Option (List α)} :
    x.map List.isEmpty = some true ↔ x = some [] := by
  cases x with
  | none => simp
  | some l => simp

/-- A dictionary with two IRIs, `p` and `q`. -/
def sampleEnv : Env where
  terms :=
    { lookupIri := fun iri =>
        if iri = "p".toList then some 2 else if iri = "q".toList then some 3 else none
      lookupPlain := fun _ => none
      encodeTypedLiteral := fun _ _ => 100
      encodeLangLiteral := fun _ _ => 100
      row := fun _ => none
      decode := fun id =>
        if id = 2 then some "p".toList else if id = 3 then some "q".toList else none }
  services :=
    { matchesRegex := fun _ _ => none
      compareNumbers := fun _ _ => none
      toLowercase := fun s => s.map Char.toLower
      exceeding := fun _ _ _ => 0
      sparql := fun _ => none }

/-- One triple, from node 1 along `p`. -/
def sampleStore : Store :=
  { Store.initial with rare := Store.initial.rare.insertNew ⟨⟨1, 2, 4, 0⟩, 1, 0⟩ }

end PgRipple.Shacl
