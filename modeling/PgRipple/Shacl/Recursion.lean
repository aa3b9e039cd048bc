import Mathlib.Data.List.Chain
import PgRipple.Shacl.Conform

/-!
# How deep conformance recurs

`node_conforms_to_shape` counts the depth on the way through `sh:or`, `sh:and` and `sh:not` of a
shape, and stops at 32. A property shape asks about the values of its path by the same function,
which begins again at depth zero, so there is no limit on the way through property shapes.

Each open call takes a unit of fuel in the model. The fuel that is needed is the length of the
longest chain of questions where each one comes up when the one before is answered.
-/

namespace PgRipple.Shacl

open Storage
open Dictionary (Text)

/-- What `node_conforms_to_shape_depth` is asked. -/
structure Question where
  depth : Nat
  node : TermId
  shapeIri : Text

-- What the rules of conformance determine, whatever the function makes of them. The verdicts are
-- the least set that is closed under the rules, as usual for shapes that refer to each other; a
-- question can have none.

section Verdict

variable (env : Env) (st : Store) (shapes : Shapes) (graphId : TermId)

/-- The answer to a question, from what is known of the others. -/
def answerFrom (known : Nat → TermId → Text → Option Bool) (q : Question) : Option Bool :=
  if q.depth > 32 then some true
  else
    match shapes.find q.shapeIri with
    | none => some true
    | some shape =>
      if shape.deactivated then some true
      else
        (shape.constraints.allM
          (nodeSatisfiesConstraint (known (q.depth + 1)) q.node)).bind fun ok =>
            if ok then
              shape.properties.allM fun ps =>
                (validatePropertyShape env st (known 0) ps [q.node] graphId q.shapeIri).map
                  List.isEmpty
            else some false

inductive Verdict : Question → Bool → Prop
  | intro {q : Question} {b : Bool} (known : Nat → TermId → Text → Option Bool)
      (justified : ∀ d v i b, known d v i = some b → Verdict ⟨d, v, i⟩ b)
      (answer : answerFrom env st shapes graphId known q = some b) : Verdict q b

open Classical in
/-- The verdict on a question, if there is one. -/
noncomputable def verdict (d : Nat) (v : TermId) (i : Text) : Option Bool :=
  if h : ∃ b, Verdict env st shapes graphId ⟨d, v, i⟩ b then some h.choose else none

end Verdict

/-- The shapes about which a constraint of the shape itself asks, for the same node. -/
def ShapeConstraint.RaisesHere (conforms : Text → Option Bool) : ShapeConstraint → Text → Prop
  | .or shapeIris, iri => Partial.Reached (fun i => conforms i = some false) shapeIris iri
  | .and shapeIris, iri => Partial.Reached (fun i => conforms i = some true) shapeIris iri
  | .not shapeIri, iri => iri = shapeIri
  | _, _ => False

/-- The shapes about which a constraint of a property shape asks, for one value. -/
def ShapeConstraint.RaisesFor (conforms : Text → Option Bool) : ShapeConstraint → Text → Prop
  | .node shapeIri, iri | .not shapeIri, iri | .qualifiedValueShape shapeIri _ _, iri =>
    iri = shapeIri
  | .or shapeIris, iri => Partial.Reached (fun i => conforms i = some false) shapeIris iri
  | .and shapeIris, iri | .xone shapeIris, iri => iri ∈ shapeIris
  | _, _ => False

section Raises

variable (env : Env) (st : Store) (shapes : Shapes) (graphId : TermId)

/-- Answering a question raises another one: at the same node and the next depth, or for a value
of a path and at depth zero. -/
inductive Raises (q : Question) : Question → Prop
  | here {shape : Shape} {c : ShapeConstraint} {iri : Text} (within : q.depth ≤ 32)
      (found : shapes.find q.shapeIri = some shape) (active : shape.deactivated = false)
      (reached : Partial.Reached (fun c => nodeSatisfiesConstraint
        (verdict env st shapes graphId (q.depth + 1)) q.node c = some true) shape.constraints c)
      (raised : c.RaisesHere (verdict env st shapes graphId (q.depth + 1) q.node) iri) :
      Raises q ⟨q.depth + 1, q.node, iri⟩
  | value {shape : Shape} {ps : PropertyShape} {pathId v : TermId} {c : ShapeConstraint}
      {iri : Text} (within : q.depth ≤ 32)
      (found : shapes.find q.shapeIri = some shape) (active : shape.deactivated = false)
      (satisfied : ∀ c ∈ shape.constraints, nodeSatisfiesConstraint
        (verdict env st shapes graphId (q.depth + 1)) q.node c = some true)
      (reached : Partial.Reached (fun ps => validatePropertyShape env st
        (verdict env st shapes graphId 0) ps [q.node] graphId q.shapeIri = some [])
          shape.properties ps)
      (path : env.terms.lookupIri ps.pathIri = some pathId) (listed : c ∈ ps.constraints)
      (isValue : v ∈ getValueIds st q.node pathId graphId)
      (raised : c.RaisesFor (verdict env st shapes graphId 0 v) iri) :
      Raises q ⟨0, v, iri⟩

end Raises

section Answers

variable {env : Env} {st : Store} {shapes : Shapes} {graphId : TermId} {fuel : Nat}
  {q : Question} {b b' : Bool}

theorem nodeConformsToShapeDepth_eq_answerFrom (q : Question) :
    nodeConformsToShapeDepth env st shapes graphId (fuel + 1) q.depth q.node q.shapeIri =
      answerFrom env st shapes graphId (nodeConformsToShapeDepth env st shapes graphId fuel) q :=
  rfl

theorem below_answerFrom {known known' : Nat → TermId → Text → Option Bool}
    (h : ∀ d v i, Partial.Below (known d v i) (known' d v i)) :
    Partial.Below (answerFrom env st shapes graphId known q)
      (answerFrom env st shapes graphId known' q) := by
  rw [answerFrom, answerFrom]
  split
  · exact .refl _
  split
  · exact .refl _
  split
  · exact .refl _
  refine (Partial.below_allM fun c => below_nodeSatisfiesConstraint (h _)).bind fun ok => ?_
  cases ok with
  | false => exact Partial.Below.refl (some false)
  | true => exact Partial.below_allM fun ps => (below_validatePropertyShape (h 0)).map _

/-- The rules do not contradict each other. -/
theorem Verdict.unique (first : Verdict env st shapes graphId q b)
    (second : Verdict env st shapes graphId q b') : b = b' := by
  induction first generalizing b' with
  | intro known justified answer ih =>
    obtain ⟨known', justified', answer'⟩ := second
    -- where both are known they agree, so what is known together is above both
    let together (d : Nat) (v : TermId) (i : Text) : Option Bool := (known d v i).or (known' d v i)
    have left (d : Nat) (v : TermId) (i : Text) :
        Partial.Below (known d v i) (together d v i) := by
      intro c hc
      show (known d v i).or (known' d v i) = some c
      rw [hc, Option.some_or]
    have right (d : Nat) (v : TermId) (i : Text) :
        Partial.Below (known' d v i) (together d v i) := by
      intro c hc
      show (known d v i).or (known' d v i) = some c
      cases same : known d v i with
      | none => rw [Option.none_or, hc]
      | some c' => rw [Option.some_or, ih d v i c' same (justified' d v i c hc)]
    have one := below_answerFrom left _ answer
    rw [below_answerFrom right _ answer'] at one
    exact (Option.some.inj one).symm

/-- An answer of the function is the verdict. -/
theorem verdict_of_answer {d : Nat} {v : TermId} {i : Text} :
    Partial.Below (nodeConformsToShapeDepth env st shapes graphId fuel d v i)
      (verdict env st shapes graphId d v i) := by
  have sound (fuel : Nat) (q : Question) (b : Bool) (answer : nodeConformsToShapeDepth env st
      shapes graphId fuel q.depth q.node q.shapeIri = some b) :
      Verdict env st shapes graphId q b := by
    induction fuel generalizing q b with
    | zero => cases answer
    | succ fuel ih =>
      rw [nodeConformsToShapeDepth_eq_answerFrom] at answer
      exact ⟨_, fun d v i b h => ih ⟨d, v, i⟩ b h, answer⟩
  intro b answer
  have known := sound fuel ⟨d, v, i⟩ b answer
  have some' : ∃ b, Verdict env st shapes graphId ⟨d, v, i⟩ b := ⟨b, known⟩
  rw [verdict, dif_pos some', some'.choose_spec.unique known]

end Answers

section Call

variable {env : Env} {st : Store} {shapes : Shapes} {graphId : TermId} {fuel : Nat}
  {c : ShapeConstraint} {test other : Text → Option Bool} {node : TermId}

theorem isSome_nodeSatisfiesConstraint_iff {conforms conforms' : TermId → Text → Option Bool}
    (le : ∀ v i, Partial.Below (conforms v i) (conforms' v i)) :
    (nodeSatisfiesConstraint conforms node c).isSome = true ↔
      ∀ iri, c.RaisesHere (conforms' node) iri → (conforms node iri).isSome = true := by
  cases c with
  | or iris => exact Partial.isSome_anyM_iff (le node)
  | and iris => exact Partial.isSome_allM_iff (le node)
  | not iri =>
    rw [nodeSatisfiesConstraint, Partial.negate, Option.isSome_map]
    exact ⟨fun h i same => same ▸ h, fun h => h iri rfl⟩
  | _ => exact ⟨fun _ _ none' => absurd none' id, fun _ => rfl⟩

theorem isSome_eachConforming_iff {args : ConstraintArgs} {constraint : Component}
    {ok : TermId → Option Bool} {message : TermId → Message} :
    (args.eachConforming constraint ok message).isSome = true ↔
      ∀ v ∈ args.values, (ok v).isSome = true := by
  rw [ConstraintArgs.eachConforming, Option.isSome_map, Partial.isSome_filter_iff]
  simp only [Partial.negate, Option.isSome_map]

theorem isSome_dispatchConstraint_iff {args : ConstraintArgs}
    {conforms : TermId → Text → Option Bool}
    (le : ∀ v i, Partial.Below (args.conforms v i) (conforms v i)) :
    (dispatchConstraint args c).isSome = true ↔
      ∀ v ∈ args.values, ∀ iri, c.RaisesFor (conforms v) iri →
        (args.conforms v iri).isSome = true := by
  have single {p : TermId → Prop} {shapeIri : Text}
      (h : p = fun v => (args.conforms v shapeIri).isSome = true) :
      (∀ v ∈ args.values, p v) ↔
        ∀ v ∈ args.values, ∀ iri, iri = shapeIri → (args.conforms v iri).isSome = true := by
    subst h
    exact ⟨fun h v hv i same => same ▸ h v hv, fun h v hv => h v hv shapeIri rfl⟩
  cases c with
  | node iri =>
    rw [dispatchConstraint, ConstraintArgs.checkNode, isSome_eachConforming_iff]
    exact single rfl
  | or iris =>
    rw [dispatchConstraint, ConstraintArgs.checkOr, isSome_eachConforming_iff]
    exact forall₂_congr fun v _ => Partial.isSome_anyM_iff (le v)
  | and iris =>
    rw [dispatchConstraint, ConstraintArgs.checkAnd, Option.isSome_map, Partial.isSome_mapM_iff]
    refine forall₂_congr fun v _ => ?_
    rw [ConstraintArgs.checkAndAt, Option.isSome_map, Partial.isSome_filter_iff]
    simp only [Partial.negate, Option.isSome_map, ShapeConstraint.RaisesFor]
  | not iri =>
    rw [dispatchConstraint, ConstraintArgs.checkNot, isSome_eachConforming_iff]
    simp only [Partial.negate, Option.isSome_map]
    exact single rfl
  | qualifiedValueShape iri minCount maxCount =>
    rw [dispatchConstraint, ConstraintArgs.checkQualified, Option.isSome_map,
      Partial.isSome_filter_iff]
    exact single rfl
  | xone iris =>
    rw [dispatchConstraint, ConstraintArgs.checkXone, Option.isSome_map, Partial.isSome_mapM_iff]
    refine forall₂_congr fun v _ => ?_
    rw [ConstraintArgs.checkXoneAt, Option.isSome_map, Partial.isSome_filter_iff]
    simp only [ShapeConstraint.RaisesFor]
  | _ => exact ⟨fun _ _ _ _ none' => absurd none' id, fun _ => rfl⟩

theorem isSome_validatePropertyShape_iff {st : Store} {ps : PropertyShape} {shapeIri : Text}
    {conforms conforms' : TermId → Text → Option Bool}
    (le : ∀ v i, Partial.Below (conforms v i) (conforms' v i)) :
    (validatePropertyShape env st conforms ps [node] graphId shapeIri).isSome = true ↔
      ∀ pathId, env.terms.lookupIri ps.pathIri = some pathId → ∀ c ∈ ps.constraints,
        ∀ v ∈ getValueIds st node pathId graphId, ∀ iri, c.RaisesFor (conforms' v) iri →
          (conforms v iri).isSome = true := by
  rw [validatePropertyShape]
  cases path : env.terms.lookupIri ps.pathIri with
  | none => exact ⟨fun _ pathId none' => absurd none' (by simp), fun _ => rfl⟩
  | some pathId =>
    dsimp only
    rw [Option.isSome_map, Partial.isSome_mapM_iff, List.forall_mem_singleton, Option.isSome_map,
      Partial.isSome_mapM_iff]
    have each (c : ShapeConstraint) : (dispatchConstraint
          (constraintArgs env st conforms graphId shapeIri ps.pathIri pathId node)
            c).isSome = true ↔
        ∀ v ∈ getValueIds st node pathId graphId, ∀ iri, c.RaisesFor (conforms' v) iri →
          (conforms v iri).isSome = true := isSome_dispatchConstraint_iff le
    simp only [each]
    constructor
    · intro h other same
      cases same
      exact h
    · exact fun h => h pathId rfl

/-- A call returns exactly if each question that it raises is answered. -/
theorem isSome_succ_iff (q : Question) :
    (nodeConformsToShapeDepth env st shapes graphId (fuel + 1) q.depth q.node q.shapeIri).isSome =
      true ↔ ∀ q', Raises env st shapes graphId q q' →
        (nodeConformsToShapeDepth env st shapes graphId fuel q'.depth q'.node
          q'.shapeIri).isSome = true := by
  have below (d : Nat) (v : TermId) (i : Text) :
      Partial.Below (nodeConformsToShapeDepth env st shapes graphId fuel d v i)
        (verdict env st shapes graphId d v i) := verdict_of_answer
  -- a question that raises nothing is answered at once
  have settled (known : answerFrom env st shapes graphId
        (nodeConformsToShapeDepth env st shapes graphId fuel) q = some true)
      (silent : ∀ q', ¬ Raises env st shapes graphId q q') :
      (answerFrom env st shapes graphId (nodeConformsToShapeDepth env st shapes graphId fuel)
        q).isSome = true ↔ ∀ q', Raises env st shapes graphId q q' →
          (nodeConformsToShapeDepth env st shapes graphId fuel q'.depth q'.node
            q'.shapeIri).isSome = true := by
    rw [known]
    exact ⟨fun _ q' raised => absurd raised (silent q'), fun _ => rfl⟩
  rw [nodeConformsToShapeDepth_eq_answerFrom]
  by_cases within : q.depth ≤ 32
  case neg =>
    refine settled (by rw [answerFrom, if_pos (by omega)]) ?_
    rintro q' (⟨within'⟩ | ⟨within'⟩)
    all_goals exact within within'
  cases found : shapes.find q.shapeIri with
  | none =>
    refine settled (by rw [answerFrom, if_neg (by omega), found]) ?_
    rintro q' (⟨-, found'⟩ | ⟨-, found'⟩)
    all_goals
      rw [found] at found'
      cases found'
  | some shape =>
    cases active : shape.deactivated with
    | true =>
      refine settled (by rw [answerFrom, if_neg (by omega), found]; simp [active]) ?_
      rintro q' (⟨-, found', active'⟩ | ⟨-, found', active'⟩)
      all_goals
        rw [found] at found'
        cases found'
        rw [active] at active'
        cases active'
    | false =>
      have constraint (c : ShapeConstraint) :=
        @below_nodeSatisfiesConstraint q.node _ _ c (below (q.depth + 1))
      have determined := Partial.below_allM (l := shape.constraints) constraint
      have logical := Partial.isSome_allM_iff (l := shape.constraints) constraint
      have properties := Partial.isSome_allM_iff (l := shape.properties) fun ps =>
        (@below_validatePropertyShape env st ps [q.node] graphId q.shapeIri _ _ (below 0)).map
          List.isEmpty
      simp only [isSome_nodeSatisfiesConstraint_iff (below (q.depth + 1))] at logical
      simp only [map_isEmpty_eq_true_iff, Option.isSome_map,
        isSome_validatePropertyShape_iff (below 0)] at properties
      rw [answerFrom, if_neg (by omega), found]
      dsimp only
      rw [active, if_neg Bool.false_ne_true]
      constructor
      · intro returns q' raised
        obtain ⟨b, answer⟩ := Option.isSome_iff_exists.mp returns
        obtain ⟨ok, tested, rest⟩ := Option.bind_eq_some_iff.mp answer
        cases raised with
        | here within' found' active' reached raised =>
          rw [found] at found'
          cases found'
          exact logical.mp (by rw [tested]; rfl) _ reached _ raised
        | value within' found' active' satisfied reached path listed isValue raised =>
          rw [found] at found'
          cases found'
          have known := determined ok tested
          rw [Partial.allM_eq_true_iff.mpr satisfied] at known
          cases known
          rw [if_pos rfl] at rest
          exact properties.mp (by rw [rest]; rfl) _ reached _ path _ listed _ isValue _ raised
      · intro answered
        have tested := logical.mpr fun c reached iri raised =>
          answered _ (.here within found active reached raised)
        obtain ⟨ok, tested⟩ := Option.isSome_iff_exists.mp tested
        rw [tested, Option.bind_some]
        cases ok with
        | false => rfl
        | true =>
          have known := determined true tested
          have satisfied := Partial.allM_eq_true_iff.mp known
          rw [if_pos rfl]
          refine properties.mpr fun ps reached pathId path c listed v isValue iri raised => ?_
          exact answered _ (.value within found active satisfied reached path listed isValue raised)

end Call

section Depth

variable {env : Env} {st : Store} {shapes : Shapes} {graphId : TermId}

/-- So much fuel is enough if and only if no chain of questions is longer. -/
theorem isSome_iff_no_chain (fuel : Nat) (q : Question) :
    (nodeConformsToShapeDepth env st shapes graphId fuel q.depth q.node q.shapeIri).isSome =
      true ↔ ¬ ∃ later : List Question, later.length = fuel ∧
        (q :: later).IsChain (Raises env st shapes graphId) := by
  induction fuel generalizing q with
  | zero =>
    refine ⟨fun h => absurd h Bool.false_ne_true, fun h => ?_⟩
    exact absurd ⟨[], rfl, List.isChain_singleton q⟩ h
  | succ fuel ih =>
    rw [isSome_succ_iff]
    simp only [ih]
    constructor
    · rintro none' ⟨later, length, chain⟩
      cases later with
      | nil => cases length
      | cons q' later =>
        obtain ⟨raised, chain⟩ := List.isChain_cons_cons.mp chain
        exact none' q' raised ⟨later, Nat.succ.inj length, chain⟩
    · rintro none' q' raised ⟨later, length, chain⟩
      exact none' ⟨q' :: later, congrArg Nat.succ length,
        List.isChain_cons_cons.mpr ⟨raised, chain⟩⟩

/-- A question that raises itself is never answered. -/
theorem eq_none_of_raises_self {q : Question} (h : Raises env st shapes graphId q q)
    (fuel : Nat) :
    nodeConformsToShapeDepth env st shapes graphId fuel q.depth q.node q.shapeIri = none := by
  rw [← Option.not_isSome_iff_eq_none, isSome_iff_no_chain, not_not]
  refine ⟨List.replicate fuel q, List.length_replicate, ?_⟩
  rw [← List.replicate_succ]
  exact List.isChain_replicate_of_rel (fuel + 1) h

variable (env st shapes graphId)

/-- `node_conforms_to_shape` returns, and never are more calls open than there are depths up to
the first one at which the guard stops. -/
def WithinGuard (nodeId : TermId) (iri : Text) : Prop :=
  (nodeConformsToShape env st shapes graphId 34 nodeId iri).isSome = true

variable {env st shapes graphId}

/-- The guard bounds the recursion if and only if no chain of more questions begins here. -/
theorem withinGuard_iff (nodeId : TermId) (iri : Text) :
    WithinGuard env st shapes graphId nodeId iri ↔
      ¬ ∃ later : List Question, later.length = 34 ∧
        ((⟨0, nodeId, iri⟩ : Question) :: later).IsChain (Raises env st shapes graphId) :=
  isSome_iff_no_chain 34 ⟨0, nodeId, iri⟩

/-- Every value along `p` has the shape `S`. -/
def circularProperty : PropertyShape := ⟨"p".toList, [.node "S".toList]⟩

def circularShape : Shape := ⟨"S".toList, .none, [], [circularProperty], false⟩

def circularShapes : Shapes where
  list := [circularShape]
  unique := by decide

/-- One triple, from node 1 along `p` to node 1. -/
def circularStore : Store :=
  { Store.initial with rare := Store.initial.rare.insertNew ⟨⟨1, 2, 1, 0⟩, 1, 0⟩ }

/-- On a circle of data, conformance to this shape does not return. -/
theorem not_withinGuard :
    ¬ WithinGuard sampleEnv circularStore circularShapes 0 1 "S".toList ∧
      ∀ fuel, nodeConformsToShape sampleEnv circularStore circularShapes 0 fuel 1 "S".toList =
        none := by
  have raised := @Raises.value sampleEnv circularStore circularShapes 0 ⟨0, 1, "S".toList⟩
    circularShape circularProperty 2 1 (.node "S".toList) "S".toList
  have again : Raises sampleEnv circularStore circularShapes 0 ⟨0, 1, "S".toList⟩
      ⟨0, 1, "S".toList⟩ := by
    apply raised (by decide) (by decide) rfl
    · exact fun c hc => absurd hc List.not_mem_nil
    · exact ⟨[], [], rfl, fun ps hps => absurd hps List.not_mem_nil⟩
    · decide +kernel
    · exact List.mem_singleton_self _
    · decide
    · rfl
  have never := eq_none_of_raises_self again
  refine ⟨fun h => ?_, never⟩
  rw [WithinGuard, nodeConformsToShape, never 34] at h
  cases h

end Depth

end PgRipple.Shacl
