import PgRipple.Shacl.Conform

/-!
# Planner hints

Loading a shape leaves hints about the predicates of its property shapes: that a value
exists, or that there is at most one. There is one hint of each type for a predicate, and
it belongs to the shape that set it first. Dropping a shape removes the hints that belong
to it; loading a shape again under its IRI does not.

A hint does not say for which nodes it was promised.
-/

namespace PgRipple.Shacl

open Storage
open Dictionary (Text)

/-- The `hint_type`. -/
inductive HintType where
  | maxCount1
  | minCount1
  deriving DecidableEq

/-- A row of `_pg_ripple.shape_hints`. -/
structure ShapeHint where
  predicateId : TermId
  hintType : HintType
  shapeIriId : TermId
  deriving DecidableEq

def ShapeHint.key (h : ShapeHint) : TermId × HintType := (h.predicateId, h.hintType)

abbrev Hints := UniqueTable ShapeHint.key

def ShapeConstraint.isMinGe1 : ShapeConstraint → Bool
  | .minCount n => 1 ≤ n
  | _ => false

def ShapeConstraint.isMaxLe1 : ShapeConstraint → Bool
  | .maxCount n => n ≤ 1
  | _ => false

section Populate

-- The id that an IRI has, or gets when it is first encoded.
variable (encode : Text → TermId)

/-- The body of the loop over the property shapes. -/
def propertyHints (shape : Shape) (prop : PropertyShape) : List ShapeHint :=
  let hint (hintType : HintType) : ShapeHint :=
    ⟨encode prop.pathIri, hintType, encode shape.shapeIri⟩
  (if prop.constraints.any ShapeConstraint.isMinGe1 then [hint .minCount1] else []) ++
    if prop.constraints.any ShapeConstraint.isMaxLe1 then [hint .maxCount1] else []

/-- `populate_hints`; on conflict only the time of the hint changes. -/
def populateHints (shape : Shape) (hints : Hints) : Hints :=
  hints.insertAll (shape.properties.flatMap (propertyHints encode shape))

/-- `remove_hints_for_shape`; an IRI without an id never had hints. -/
def removeHintsForShape (shapeIri : Text) (hints : Hints) : Hints :=
  hints.deleteWhere fun h => h.shapeIriId = encode shapeIri

end Populate

/-- `has_min_count_1`. -/
def hasMinCount1 (hints : Hints) (predId : TermId) : Bool :=
  decide (hints.HasKey (predId, .minCount1))

/-- `store_shape`. -/
def Shapes.store (shapes : Shapes) (shape : Shape) : Shapes :=
  let table := (⟨shapes.list, shapes.unique⟩ : UniqueTable Shape.shapeIri).upsert shape
    (fun old => { shape with shapeIri := old.shapeIri }) fun _ => rfl
  ⟨table.rows, table.unique⟩

/-- `DELETE FROM _pg_ripple.shacl_shapes WHERE shape_iri = …`. -/
def Shapes.delete (shapes : Shapes) (shapeIri : Text) : Shapes :=
  let table := (⟨shapes.list, shapes.unique⟩ : UniqueTable Shape.shapeIri).deleteWhere
    fun shape => shape.shapeIri = shapeIri
  ⟨table.rows, table.unique⟩

/-- The shapes and the hints. -/
structure Catalog where
  shapes : Shapes
  hints : Hints

/-- A document is loaded shape by shape. -/
inductive CatalogStep where
  | load (shape : Shape)
  | dropShape (shapeUri : Text)

namespace Catalog

variable (encode : Text → TermId)

def initial : Catalog := ⟨⟨[], List.nodup_nil⟩, .empty _⟩

def step (catalog : Catalog) : CatalogStep → Catalog
  | .load shape => ⟨catalog.shapes.store shape, populateHints encode shape catalog.hints⟩
  | .dropShape shapeUri =>
    ⟨catalog.shapes.delete shapeUri, removeHintsForShape encode shapeUri catalog.hints⟩

/-- The catalog after a sequence of loads and drops. -/
def run (steps : List CatalogStep) : Catalog := steps.foldl (step encode) initial

end Catalog

/-- `run_validate` reports nothing, in every graph and in all of them together. -/
def StoreConforms (env : Env) (st : Store) (shapes : Shapes) : Prop :=
  ∀ graphId, ∃ fuel, runValidate env st shapes graphId fuel = some []

section Conforming

variable {env : Env} {st : Store} {shapes : Shapes} {shape : Shape} {graphId : TermId}
  {fuel : Nat} {focusNodes : List TermId} {focus : TermId}

/-- Without focus nodes nothing is reported. -/
theorem validateShape_nil : validateShape env st shapes graphId fuel shape [] = some [] := by
  have logical : (shape.constraints.mapM fun c =>
      ([].mapM (nodeViolations env st shapes graphId fuel shape c)).map List.flatten).map
        List.flatten = some [] := by
    rw [Partial.flatten_mapM_eq_nil_iff]
    intro c _
    rfl
  have properties : (shape.properties.mapM fun ps =>
      validatePropertyShape env st (nodeConformsToShape env st shapes graphId fuel) ps []
        graphId shape.shapeIri).map List.flatten = some [] := by
    rw [Partial.flatten_mapM_eq_nil_iff]
    intro ps _
    rw [validatePropertyShape]
    cases env.terms.lookupIri ps.pathIri <;> rfl
  have closed : closedViolations env st graphId shape [] = [] := by
    rw [closedViolations]
    cases closedIgnores shape <;> rfl
  rw [validateShape, openViolations, logical, Option.bind_some, properties, closed]
  split <;> rfl

theorem storeConforms_of_noFocus
    (nobody : ∀ shape ∈ shapes.list, ∀ graphId,
      collectFocusNodes env st shape.target graphId = []) :
    StoreConforms env st shapes := by
  intro graphId
  refine ⟨0, ?_⟩
  rw [runValidate, Partial.flatten_mapM_eq_nil_iff]
  intro shape hshape
  rw [nobody shape hshape graphId]
  exact validateShape_nil

/-- Every row of the table of a predicate is a visible triple. -/
theorem visible_of_mem_vpTable {p : TermId} {k : Key} (mem : k ∈ vpTable st p) :
    st.Visible (k.quad p) := by
  unfold vpTable at mem
  split at mem
  · rename_i dedicated
    exact .inl ⟨dedicated, mem⟩
  · obtain ⟨r, hr, rfl⟩ := List.mem_map.mp mem
    obtain ⟨stored, same⟩ := List.mem_filter.mp hr
    have quad : r.quad.key.quad p = r.quad := Quad.ext_key (of_decide_eq_true same).symm rfl
    exact .inr (quad ▸ UniqueTable.HasKey.of_mem stored)

/-- An active shape asks for a value of `p` at the node, in some graph or in all of them;
`asked` are the graphs where the value may be. -/
def Requires (env : Env) (st : Store) (shapes : Shapes) (asked : TermId → Prop)
    (node p : TermId) : Prop :=
  ∃ shape ∈ shapes.list, shape.deactivated = false ∧
    (∃ ps ∈ shape.properties, env.terms.lookupIri ps.pathIri = some p ∧
      ∃ n, 1 ≤ n ∧ .minCount n ∈ ps.constraints) ∧
    ∃ graphId, node ∈ collectFocusNodes env st shape.target graphId ∧
      ∀ g, graphId < 0 ∨ g = graphId → asked g

/-- In data that conform, a required value exists. -/
theorem Requires.exists_value {asked : TermId → Prop} {p : TermId}
    (h : Requires env st shapes asked focus p) (conforms : StoreConforms env st shapes) :
    ∃ o g, asked g ∧ st.Visible ⟨focus, p, o, g⟩ := by
  obtain ⟨shape, hshape, active, ⟨ps, hps, path, n, some_, constraint⟩, graphId, target, scope⟩ := h
  obtain ⟨fuel, nothing⟩ := conforms graphId
  have ofShape := Partial.flatten_mapM_eq_nil_iff.mp nothing shape hshape
  rw [validateShape, if_neg (by simp [active])] at ofShape
  obtain ⟨reports, opened, none⟩ := Option.map_eq_some_iff.mp ofShape
  obtain ⟨rfl, -⟩ := List.append_eq_nil_iff.mp none
  obtain ⟨logical, -, properties⟩ := Option.bind_eq_some_iff.mp opened
  obtain ⟨ofProperties, validated, none⟩ := Option.map_eq_some_iff.mp properties
  obtain ⟨-, rfl⟩ := List.append_eq_nil_iff.mp none
  have ofProperty := Partial.flatten_mapM_eq_nil_iff.mp validated ps hps
  simp only [validatePropertyShape, path] at ofProperty
  have ofFocus := Partial.flatten_mapM_eq_nil_iff.mp ofProperty focus target
  have ofCount := Partial.flatten_mapM_eq_nil_iff.mp ofFocus _ constraint
  -- a count of at least one is that of a list with an element
  have counted : 0 < (constraintArgs env st (nodeConformsToShape env st shapes graphId fuel) graphId
      shape.shapeIri ps.pathIri p focus).count := by
    by_contra few
    rw [dispatchConstraint, ConstraintArgs.checkMinCount, if_pos (by omega)] at ofCount
    cases ofCount
  simp only [constraintArgs] at counted
  obtain ⟨k, hk, subject, graph⟩ :
      ∃ k ∈ vpTable st p, k.s = focus ∧ (graphId < 0 ∨ k.g = graphId) := by
    split at counted
    · rename_i all
      obtain ⟨k, hk⟩ := List.exists_mem_of_length_pos (Int.natCast_pos.mp counted)
      obtain ⟨mem, same⟩ := List.mem_filter.mp hk
      exact ⟨k, mem, of_decide_eq_true same, .inl all⟩
    · obtain ⟨k, hk⟩ := List.exists_mem_of_length_pos (Int.natCast_pos.mp counted)
      obtain ⟨mem, same⟩ := List.mem_filter.mp hk
      obtain ⟨subject, graph⟩ := Bool.and_eq_true_iff.mp same
      exact ⟨k, mem, of_decide_eq_true subject, .inr (of_decide_eq_true graph)⟩
  exact ⟨k.o, k.g, scope k.g graph, subject ▸ visible_of_mem_vpTable hk⟩

end Conforming

end PgRipple.Shacl
