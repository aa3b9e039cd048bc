import PgRipple.Shacl.Recursion

/-!
# Conformance and reports agree

`node_conforms_to_shape` asks about the shapes in `sh:or`, `sh:and` and `sh:not` of a shape at
depth one, and `run_validate` asks about them at depth zero. So the limit of 32 can cut the
first off where the second still looks. And only `run_validate` looks at `sh:closed`.

For references without circles these are the only differences: the two agree at a node if and
only if neither decides there. The limit does not if the questions that come up on the way,
at the same node, end above it.
-/

namespace PgRipple.Shacl

open Storage
open Dictionary (Text)

section Depth

variable {env : Env} {st : Store} {shapes : Shapes} {graphId : TermId} {fuel depth : Nat}
  {node : TermId} {iri : Text} {rank : Text → Nat}

theorem nodeSatisfiesConstraint_congr {conforms conforms' : TermId → Text → Option Bool}
    {c : ShapeConstraint}
    (h : ∀ ref, c.RaisesHere (conforms node) ref → conforms node ref = conforms' node ref) :
    nodeSatisfiesConstraint conforms node c = nodeSatisfiesConstraint conforms' node c := by
  cases c with
  | or iris => exact Partial.anyM_congr h
  | and iris => exact Partial.allM_congr h
  | not iri =>
    rw [nodeSatisfiesConstraint, nodeSatisfiesConstraint, Partial.negate, Partial.negate,
      h iri rfl]
  | _ => rfl

/-- Without circular references, the function answers by the rules. -/
theorem answer_eq_verdict (acyclic : shapes.Acyclic rank) (enough : rank iri < fuel) :
    nodeConformsToShapeDepth env st shapes graphId fuel depth node iri =
      verdict env st shapes graphId depth node iri := by
  have returns : (nodeConformsToShapeDepth env st shapes graphId fuel depth node iri).isSome =
      true := isSome_nodeConformsToShapeDepth acyclic enough
  obtain ⟨b, hb⟩ := Option.isSome_iff_exists.mp returns
  rw [hb, verdict_of_answer b hb]

theorem verdict_eq (acyclic : shapes.Acyclic rank) :
    verdict env st shapes graphId depth node iri =
      answerFrom env st shapes graphId (verdict env st shapes graphId) ⟨depth, node, iri⟩ := by
  have returns : (nodeConformsToShapeDepth env st shapes graphId (rank iri + 1) depth node
      iri).isSome = true := isSome_nodeConformsToShapeDepth acyclic (Nat.lt_succ_self _)
  obtain ⟨b, hb⟩ := Option.isSome_iff_exists.mp returns
  have answer : answerFrom env st shapes graphId
      (nodeConformsToShapeDepth env st shapes graphId (rank iri)) ⟨depth, node, iri⟩ = some b := hb
  rw [verdict_of_answer b hb]
  exact (below_answerFrom (fun _ _ _ => verdict_of_answer) b answer).symm

variable (env st shapes graphId)

/-- The questions about shapes that come up at the node, one after the other, have after so many
steps come to an IRI without an active shape. -/
def EndsWithin (node : TermId) : (k depth : Nat) → Text → Prop
  | 0, _, iri => ∀ shape, shapes.find iri = some shape → shape.deactivated = true
  | k + 1, depth, iri => ∀ shape, shapes.find iri = some shape → shape.deactivated = false →
      ∀ c, Partial.Reached (fun c => nodeSatisfiesConstraint
          (verdict env st shapes graphId (depth + 1)) node c = some true) shape.constraints c →
        ∀ ref, c.RaisesHere (verdict env st shapes graphId (depth + 1) node) ref →
          EndsWithin node k (depth + 1) ref

variable {env st shapes graphId}

/-- Few enough levels of references end in time. -/
theorem Shapes.Acyclic.endsWithin {k : Nat} (acyclic : shapes.Acyclic rank) (low : rank iri < k) :
    EndsWithin env st shapes graphId node k depth iri := by
  induction k generalizing depth iri with
  | zero => omega
  | succ k ih =>
    rintro shape found _ c ⟨before, after, split, -⟩ ref raised
    have refers : ref ∈ c.references := by
      cases c with
      | or iris | and iris =>
        obtain ⟨_, _, rfl, -⟩ := raised
        exact List.mem_append_right _ List.mem_cons_self
      | not iri => exact List.mem_singleton.mpr raised
      | _ => exact raised.elim
    have hc : c ∈ shape.constraints := split ▸ List.mem_append_right _ List.mem_cons_self
    have := acyclic.rank_lt found (shape.mem_references_of_constraint hc refers)
    exact ih (by omega)

/-- An IRI without an active shape is conformed to, at any depth. -/
theorem verdict_of_inactive (acyclic : shapes.Acyclic rank)
    (inactive : ∀ shape, shapes.find iri = some shape → shape.deactivated = true) :
    verdict env st shapes graphId depth node iri = some true := by
  rw [verdict_eq acyclic, answerFrom]
  split
  · rfl
  split
  · rfl
  · rename_i shape found
    rw [if_pos (inactive shape found)]

/-- Below the limit, the depth at which a question is asked is immaterial. -/
theorem EndsWithin.verdict_eq {k depth' : Nat} (acyclic : shapes.Acyclic rank)
    (ends : EndsWithin env st shapes graphId node k depth iri) (low : depth + k ≤ 33)
    (low' : depth' + k ≤ 33) :
    verdict env st shapes graphId depth node iri =
      verdict env st shapes graphId depth' node iri := by
  induction k generalizing depth depth' iri with
  | zero => rw [verdict_of_inactive acyclic ends, verdict_of_inactive acyclic ends]
  | succ k ih =>
    have above : ¬ depth > 32 := by omega
    have above' : ¬ depth' > 32 := by omega
    rw [Shacl.verdict_eq acyclic, Shacl.verdict_eq acyclic, answerFrom, answerFrom, if_neg above,
      if_neg above']
    cases found : shapes.find iri with
    | none => rfl
    | some shape =>
      dsimp only
      split
      · rfl
      · rename_i active
        have active : shape.deactivated = false := by simpa using active
        congr 1
        refine Partial.allM_congr fun c reached => ?_
        refine nodeSatisfiesConstraint_congr fun ref raised => ?_
        exact ih (ends shape found active c reached ref raised) (by omega) (by omega)

end Depth

section Agreement

variable {env : Env} {st : Store} {shapes : Shapes} {graphId : TermId} {fuel : Nat}
  {nodeId : TermId} {iri : Text} {shape : Shape} {rank : Text → Nat}

/-- A constraint of the shape itself reports nothing if the node satisfies it. -/
theorem nodeViolations_eq_nil_iff {c : ShapeConstraint} :
    nodeViolations env st shapes graphId fuel shape c nodeId = some [] ↔
      nodeSatisfiesConstraint (nodeConformsToShape env st shapes graphId fuel) nodeId c =
        some true := by
  cases c with
  | or iris =>
    rw [nodeViolations, nodeSatisfiesConstraint]
    cases iris.anyM (nodeConformsToShape env st shapes graphId fuel nodeId) with
    | none => simp
    | some ok => cases ok <;> simp
  | and iris =>
    rw [nodeViolations, nodeSatisfiesConstraint, Partial.allM_eq_true_iff]
    rw [Option.map_eq_some_iff]
    constructor
    · rintro ⟨failed, hfailed, none⟩
      rw [List.map_eq_nil_iff.mp none] at hfailed
      intro s hs
      exact Partial.negate_eq_false_iff.mp (Partial.filter_eq_nil_iff.mp hfailed s hs)
    · intro all
      refine ⟨[], Partial.filter_eq_nil_iff.mpr fun s hs => ?_, rfl⟩
      exact Partial.negate_eq_false_iff.mpr (all s hs)
  | not iri =>
    rw [nodeViolations, nodeSatisfiesConstraint, Partial.negate]
    cases nodeConformsToShape env st shapes graphId fuel nodeId iri with
    | none => simp
    | some ok => cases ok <;> simp
  | _ => simp [nodeViolations, nodeSatisfiesConstraint]

theorem openViolations_eq_nil_iff :
    openViolations env st shapes graphId fuel shape [nodeId] = some [] ↔
      (∀ c ∈ shape.constraints, nodeSatisfiesConstraint
        (nodeConformsToShape env st shapes graphId fuel) nodeId c = some true) ∧
      ∀ ps ∈ shape.properties, validatePropertyShape env st
        (nodeConformsToShape env st shapes graphId fuel) ps [nodeId] graphId shape.shapeIri =
          some [] := by
  have single (c : ShapeConstraint) :
      ([nodeId].mapM (nodeViolations env st shapes graphId fuel shape c)).map List.flatten =
        some [] ↔ nodeSatisfiesConstraint (nodeConformsToShape env st shapes graphId fuel) nodeId
          c = some true := by
    rw [Partial.flatten_mapM_eq_nil_iff, List.forall_mem_singleton, nodeViolations_eq_nil_iff]
  rw [← Partial.flatten_mapM_eq_nil_iff]
  simp only [← single]
  rw [← Partial.flatten_mapM_eq_nil_iff, openViolations, Option.bind_eq_some_iff]
  constructor
  · rintro ⟨logical, hlogical, h⟩
    obtain ⟨properties, hproperties, none⟩ := Option.map_eq_some_iff.mp h
    obtain ⟨rfl, rfl⟩ := List.append_eq_nil_iff.mp none
    exact ⟨hlogical, hproperties⟩
  · rintro ⟨hlogical, hproperties⟩
    exact ⟨[], hlogical, Option.map_eq_some_iff.mpr ⟨[], hproperties, rfl⟩⟩

theorem validateShape_eq_nil_iff (active : shape.deactivated = false) :
    validateShape env st shapes graphId fuel shape [nodeId] = some [] ↔
      openViolations env st shapes graphId fuel shape [nodeId] = some [] ∧
        closedViolations env st graphId shape [nodeId] = [] := by
  rw [validateShape, active, if_neg (by decide), Option.map_eq_some_iff]
  constructor
  · rintro ⟨reported, h, none⟩
    obtain ⟨rfl, closed⟩ := List.append_eq_nil_iff.mp none
    exact ⟨h, closed⟩
  · rintro ⟨h, closed⟩
    exact ⟨[], h, by rw [closed]; rfl⟩

/-- The shapes that a shape refers to are answered with the fuel that it has. -/
theorem isSome_of_reference {ref : Text} (acyclic : shapes.Acyclic rank)
    (found : shapes.find iri = some shape) (enough : rank iri < fuel)
    (refers : ref ∈ shape.references) :
    (nodeConformsToShape env st shapes graphId fuel nodeId ref).isSome = true := by
  refine isSome_nodeConformsToShapeDepth acyclic ?_
  have := acyclic.rank_lt found refers
  omega

theorem isSome_openViolations (acyclic : shapes.Acyclic rank)
    (found : shapes.find iri = some shape) (enough : rank iri < fuel) :
    (openViolations env st shapes graphId fuel shape [nodeId]).isSome = true := by
  have nodeReturns (c : ShapeConstraint) (hc : c ∈ shape.constraints) (focus : TermId) :
      (nodeViolations env st shapes graphId fuel shape c focus).isSome = true := by
    have answered (ref : Text) (h : ref ∈ c.references) :=
      @isSome_of_reference env st shapes graphId fuel focus _ _ _ ref acyclic found enough
        (shape.mem_references_of_constraint hc h)
    cases c with
    | or iris =>
      rw [nodeViolations, Option.isSome_map]
      exact Partial.isSome_anyM answered
    | and iris =>
      rw [nodeViolations, Option.isSome_map]
      refine Partial.isSome_filter fun ref href => ?_
      rw [Partial.negate, Option.isSome_map]
      exact answered ref href
    | not iri =>
      rw [nodeViolations, Option.isSome_map]
      exact answered iri List.mem_cons_self
    | _ => rfl
  have logical : ((shape.constraints.mapM fun c =>
      ([nodeId].mapM (nodeViolations env st shapes graphId fuel shape c)).map
        List.flatten).map List.flatten).isSome = true := by
    rw [Option.isSome_map]
    refine Partial.isSome_mapM fun c hc => ?_
    rw [Option.isSome_map]
    exact Partial.isSome_mapM fun focus _ => nodeReturns c hc focus
  obtain ⟨reported, hreported⟩ := Option.isSome_iff_exists.mp logical
  rw [openViolations, hreported, Option.bind_some, Option.isSome_map, Option.isSome_map]
  refine Partial.isSome_mapM fun ps hps => isSome_validatePropertyShape fun v c hc ref href => ?_
  exact isSome_of_reference acyclic found enough (shape.mem_references_of_property hps hc href)

variable (env st shapes graphId)

/-- The node satisfies the constraints of the shape itself, if the shapes that they refer to are
asked about at this depth. -/
def SatisfiesAt (depth : Nat) (shape : Shape) (nodeId : TermId) : Prop :=
  ∀ c ∈ shape.constraints,
    nodeSatisfiesConstraint (verdict env st shapes graphId depth) nodeId c = some true

/-- No property shape has anything to report of the node. -/
def PropertiesHold (shape : Shape) (nodeId : TermId) : Prop :=
  ∀ ps ∈ shape.properties,
    validatePropertyShape env st (verdict env st shapes graphId 0) ps [nodeId] graphId
      shape.shapeIri = some []

variable {env st shapes graphId}

theorem verdict_eq_true_iff (acyclic : shapes.Acyclic rank) (found : shapes.find iri = some shape)
    (active : shape.deactivated = false) :
    verdict env st shapes graphId 0 nodeId iri = some true ↔
      SatisfiesAt env st shapes graphId 1 shape nodeId ∧
        PropertiesHold env st shapes graphId shape nodeId := by
  have named := (Shapes.find_eq_some found).2
  have above : ¬ 0 > 32 := by decide
  rw [verdict_eq acyclic, answerFrom, if_neg above, found]
  dsimp only
  rw [active, if_neg (by decide), Option.bind_eq_some_iff, SatisfiesAt, PropertiesHold, named]
  constructor
  · rintro ⟨ok, hok, h⟩
    cases ok with
    | false => cases h
    | true =>
      rw [if_pos rfl, Partial.allM_eq_true_iff] at h
      exact ⟨Partial.allM_eq_true_iff.mp hok, fun ps hps => map_isEmpty_eq_true_iff.mp (h ps hps)⟩
  · rintro ⟨logical, properties⟩
    refine ⟨true, Partial.allM_eq_true_iff.mpr logical, ?_⟩
    rw [if_pos rfl, Partial.allM_eq_true_iff]
    exact fun ps hps => map_isEmpty_eq_true_iff.mpr (properties ps hps)

/-- The report asks about other shapes at depth zero. -/
theorem openViolations_eq_nil_iff_satisfiesAt (acyclic : shapes.Acyclic rank)
    (found : shapes.find iri = some shape) (enough : rank iri < fuel) :
    openViolations env st shapes graphId fuel shape [nodeId] = some [] ↔
      SatisfiesAt env st shapes graphId 0 shape nodeId ∧
        PropertiesHold env st shapes graphId shape nodeId := by
  have below (v : TermId) (i : Text) : Partial.Below
      (nodeConformsToShape env st shapes graphId fuel v i) (verdict env st shapes graphId 0 v i) :=
    verdict_of_answer
  rw [openViolations_eq_nil_iff]
  refine and_congr (forall₂_congr fun c hc => ?_) (forall₂_congr fun ps hps => ?_)
  · have returns : (nodeSatisfiesConstraint (nodeConformsToShape env st shapes graphId fuel)
        nodeId c).isSome = true := isSome_nodeSatisfiesConstraint fun ref href =>
      isSome_of_reference acyclic found enough (shape.mem_references_of_constraint hc href)
    obtain ⟨b, hb⟩ := Option.isSome_iff_exists.mp returns
    rw [hb, below_nodeSatisfiesConstraint below b hb]
  · have returns : (validatePropertyShape env st (nodeConformsToShape env st shapes graphId fuel)
        ps [nodeId] graphId shape.shapeIri).isSome = true :=
      isSome_validatePropertyShape fun v c hc ref href =>
        isSome_of_reference acyclic found enough (shape.mem_references_of_property hps hc href)
    obtain ⟨reported, hreported⟩ := Option.isSome_iff_exists.mp returns
    rw [hreported, below_validatePropertyShape below reported hreported]

/-- The limit makes no difference if the questions at the node end above it. -/
theorem EndsWithin.satisfiesAt_iff (acyclic : shapes.Acyclic rank)
    (ends : EndsWithin env st shapes graphId nodeId 33 0 iri)
    (found : shapes.find iri = some shape) (active : shape.deactivated = false) :
    SatisfiesAt env st shapes graphId 1 shape nodeId ↔
      SatisfiesAt env st shapes graphId 0 shape nodeId := by
  rw [SatisfiesAt, SatisfiesAt, ← Partial.allM_eq_true_iff, ← Partial.allM_eq_true_iff]
  have same : shape.constraints.allM
      (nodeSatisfiesConstraint (verdict env st shapes graphId 1) nodeId) =
        shape.constraints.allM (nodeSatisfiesConstraint (verdict env st shapes graphId 0) nodeId) :=
    Partial.allM_congr fun c reached => nodeSatisfiesConstraint_congr fun ref raised =>
      (ends shape found active c reached ref raised).verdict_eq acyclic (by decide) (by decide)
  rw [same]

end Agreement

/-- Both functions return, and a node conforms exactly if nothing is reported of it. -/
structure ConformanceAgrees (env : Env) (st : Store) (shapes : Shapes) (graphId : TermId)
    (fuel : Nat) (nodeId : TermId) (iri : Text) : Prop where
  conformsReturns : (nodeConformsToShape env st shapes graphId fuel nodeId iri).isSome = true
  reportReturns : (reportOf env st shapes graphId fuel nodeId iri).isSome = true
  same : nodeConformsToShape env st shapes graphId fuel nodeId iri = some true ↔
    reportOf env st shapes graphId fuel nodeId iri = some []

/-- The two agree unless, at a node where the property shapes hold, the constraints of the shape
itself are decided differently one level deeper, or `sh:closed` alone reports something. If the
questions at the node end above the limit, only `sh:closed` makes a difference. -/
theorem conformanceAgrees_iff {env : Env} {st : Store} {shapes : Shapes} {graphId : TermId}
    {fuel : Nat} {nodeId : TermId} {iri : Text} {rank : Text → Nat}
    (acyclic : shapes.Acyclic rank) (enough : rank iri < fuel) :
    (ConformanceAgrees env st shapes graphId fuel nodeId iri ↔
      ∀ shape, shapes.find iri = some shape → shape.deactivated = false →
        PropertiesHold env st shapes graphId shape nodeId →
          (SatisfiesAt env st shapes graphId 1 shape nodeId ↔
            SatisfiesAt env st shapes graphId 0 shape nodeId ∧
              closedViolations env st graphId shape [nodeId] = [])) ∧
    (EndsWithin env st shapes graphId nodeId 33 0 iri →
      (ConformanceAgrees env st shapes graphId fuel nodeId iri ↔
        ∀ shape, shapes.find iri = some shape → shape.deactivated = false →
          closedViolations env st graphId shape [nodeId] = [] ∨
            ¬ (SatisfiesAt env st shapes graphId 0 shape nodeId ∧
              PropertiesHold env st shapes graphId shape nodeId))) := by
  have returns : (nodeConformsToShape env st shapes graphId fuel nodeId iri).isSome = true :=
    isSome_nodeConformsToShapeDepth acyclic enough
  have answer : nodeConformsToShape env st shapes graphId fuel nodeId iri =
      verdict env st shapes graphId 0 nodeId iri := answer_eq_verdict acyclic enough
  suffices exactly : _ ↔ _ by
    refine ⟨exactly, fun ends => exactly.trans ?_⟩
    refine forall₃_congr fun shape found active => ?_
    rw [ends.satisfiesAt_iff acyclic found active]
    tauto
  by_cases inactive : ∀ shape, shapes.find iri = some shape → shape.deactivated = true
  · -- without an active shape, the node conforms and nothing is reported
    have conforms := @verdict_of_inactive env st shapes graphId 0 nodeId iri rank acyclic inactive
    have reported : reportOf env st shapes graphId fuel nodeId iri = some [] := by
      rw [reportOf]
      split
      · rfl
      · rename_i shape found
        rw [validateShape, if_pos (inactive shape found)]
    refine ⟨fun _ shape found active => ?_, fun _ => ⟨returns, by rw [reported]; rfl, ?_⟩⟩
    · rw [inactive shape found] at active
      cases active
    · rw [answer, conforms, reported]
      simp
  · push Not at inactive
    obtain ⟨shape, found, active⟩ := inactive
    have active : shape.deactivated = false := by simpa using active
    have reported : reportOf env st shapes graphId fuel nodeId iri =
        validateShape env st shapes graphId fuel shape [nodeId] := by
      rw [reportOf, found]
    have same : (nodeConformsToShape env st shapes graphId fuel nodeId iri = some true ↔
        reportOf env st shapes graphId fuel nodeId iri = some []) ↔
          (PropertiesHold env st shapes graphId shape nodeId →
            (SatisfiesAt env st shapes graphId 1 shape nodeId ↔
              SatisfiesAt env st shapes graphId 0 shape nodeId ∧
                closedViolations env st graphId shape [nodeId] = [])) := by
      rw [answer, reported, verdict_eq_true_iff acyclic found active,
        validateShape_eq_nil_iff active, openViolations_eq_nil_iff_satisfiesAt acyclic found enough]
      tauto
    constructor
    · intro h other found' _
      cases found.symm.trans found'
      exact same.mp h.same
    · intro h
      refine ⟨returns, ?_, same.mpr (h shape found active)⟩
      rw [reported, validateShape, active, if_neg (by decide), Option.isSome_map]
      exact isSome_openViolations acyclic found enough

/-- A closed shape that declares `p`, and one that it refers to. -/
def declaringShapes : Shapes where
  list :=
    [ ⟨"A".toList, .none, [.or ["B".toList], .closed []], [⟨"p".toList, []⟩], false⟩,
      ⟨"B".toList, .none, [], [⟨"p".toList, [.minCount 1]⟩], false⟩ ]
  unique := by decide

/-- The rank of `A` is above that of `B`. -/
def declaringRank (iri : Text) : Nat := if iri = "A".toList then 1 else 0

theorem acyclic_declaringShapes : declaringShapes.Acyclic declaringRank := by
  rw [Shapes.Acyclic]
  decide

theorem conformanceAgrees_declaringShapes :
    ConformanceAgrees sampleEnv sampleStore declaringShapes 0 2 1 "A".toList := by
  refine ((conformanceAgrees_iff acyclic_declaringShapes (by decide)).2
    (acyclic_declaringShapes.endsWithin (by decide))).mpr ?_
  intro shape found _
  have : shape = declaringShapes.list.head (by decide) := by
    have first : declaringShapes.find "A".toList =
      some (declaringShapes.list.head (by decide)) := by decide
    rw [first] at found
    exact (Option.some.inj found).symm
  subst this
  exact .inl (by decide)

/-- A closed shape that declares nothing. -/
def closedShapes : Shapes where
  list := [⟨"S".toList, .none, [.closed []], [], false⟩]
  unique := by decide

/-- The node conforms, and `run_validate` reports its predicate. -/
theorem not_conformanceAgrees_closedShapes :
    closedShapes.Acyclic (fun _ => 0) ∧
      ¬ ConformanceAgrees sampleEnv sampleStore closedShapes 0 1 1 "S".toList := by
  refine ⟨by rw [Shapes.Acyclic]; decide, fun h => ?_⟩
  have conforms : nodeConformsToShape sampleEnv sampleStore closedShapes 0 1 1 "S".toList =
      some true := by decide
  have reported : reportOf sampleEnv sampleStore closedShapes 0 1 1 "S".toList ≠ some [] := by
    decide
  exact reported (h.same.mp conforms)

end PgRipple.Shacl
