import PgRipple.Lib.Partial
import PgRipple.Shacl.Data

/-!
# Constraint checkers

One function for each constraint of a property shape, as in `constraints/`, and the
dispatch over them. Whether a value conforms to another shape is asked of `conforms`,
which may not return: shapes can refer to each other in a circle.

A check appends to the list of violations, so it is given here by what it appends.
-/

namespace PgRipple.Shacl

open Storage
open Dictionary (Text)

/-- The `constraint` of a violation. -/
inductive Component where
  | minCount | maxCount | validFor | datatype | ofClass | nodeKind
  | pattern | languageIn | uniqueLang | minLength | maxLength
  | node | or | and | not | xone | qualifiedMinCount | qualifiedMaxCount
  | isIn | hasValue | lessThan | greaterThan | lessThanOrEquals | closed
  | equals | disjoint | minExclusive | maxExclusive | minInclusive | maxInclusive
  | sparql
  deriving DecidableEq, Repr

/-- The `message` of a violation, by what is written into its text. -/
inductive Message where
  | count (expected found : Int)
  | facts (count : Int) (duration : Text)
  | value (v : TermId) (expected : Text)
  | unmatched (lexical regex : Text)
  | language (v : TermId) (lang : Option Text) (allowed : List Text)
  | duplicate (tag : Text)
  | length (lexical : Text) (len bound : Int)
  | shapes (v : TermId) (iris : List Text)
  | matching (v : TermId) (found : Nat) (iris : List Text)
  | qualifying (bound found : Int) (iri : Text)
  | notAllowed (v : TermId)
  | expected (value : Text)
  | ordering (v o : TermId)
  | noOther (otherPath : Text)
  | unequal (otherPath : Text) (onlyMine onlyOther : List TermId)
  | shared (otherPath : Text) (ids : List TermId)
  | outOfRange (value bound : Text)
  | custom (text : Option Text)
  | focus (iri : Option Text)
  | undeclared (predIri : Text)
  deriving DecidableEq

/-- `Violation`. The severity is always `Violation`. -/
structure Violation where
  focusNode : Text
  shapeIri : Text
  path : Option Text
  constraint : Component
  message : Message
  shValue : Option Text
  deriving DecidableEq

/-- `ConstraintArgs`. -/
structure ConstraintArgs where
  env : Env
  store : Store
  focus : TermId
  count : Int
  pathId : TermId
  graphId : TermId
  shapeIri : Text
  pathIri : Text
  /-- `node_conforms_to_shape` in this graph, with all shapes. -/
  conforms : TermId → Text → Option Bool

namespace ConstraintArgs

variable (args : ConstraintArgs)

def values : List TermId := getValueIds args.store args.focus args.pathId args.graphId

def otherValues (pathId : TermId) : List TermId :=
  getValueIds args.store args.focus pathId args.graphId

def violation (constraint : Component) (message : Message) : Violation where
  focusNode := focusName args.env args.focus
  shapeIri := args.shapeIri
  path := some args.pathIri
  constraint := constraint
  message := message
  shValue := none

/-- The reports of `relational.rs`, which name the focus node differently. -/
def safeViolation (constraint : Component) (message : Message) : Violation :=
  { args.violation constraint message with focusNode := decodeIdSafe args.env args.focus }

/-- A violation for each value that fails a test. -/
def eachValue (constraint : Component) (ok : TermId → Bool) (message : TermId → Message) :
    List Violation :=
  (args.values.filter fun v => !ok v).map fun v => args.violation constraint (message v)

/-- The same for a test that asks whether values conform. -/
def eachConforming (constraint : Component) (ok : TermId → Option Bool)
    (message : TermId → Message) : Option (List Violation) :=
  (Partial.filter (Partial.negate ok) args.values).map fun vs =>
    vs.map fun v => args.violation constraint (message v)

def checkMinCount (n : Int) : List Violation :=
  if args.count < n then [args.violation .minCount (.count n args.count)] else []

def checkMaxCount (n : Int) : List Violation :=
  if args.count > n then [args.violation .maxCount (.count n args.count)] else []

def checkValidFor (duration : Text) : List Violation :=
  let count := args.env.services.exceeding args.focus args.pathId duration
  if count > 0 then [args.violation .validFor (.facts count duration)] else []

def checkDatatype (dtIri : Text) : List Violation :=
  args.eachValue .datatype (valueHasDatatype args.env · dtIri) (.value · dtIri)

def checkClass (classIri : Text) : List Violation :=
  match args.env.terms.lookupIri classIri, args.env.terms.lookupIri rdfType with
  | some classId, some rdfTypeId =>
    args.eachValue .ofClass (valueHasRdfType args.store · rdfTypeId classId) (.value · classIri)
  | _, _ => []

def checkNodeKind (kindIri : Text) : List Violation :=
  args.eachValue .nodeKind (valueHasNodeKind args.env · kindIri) (.value · kindIri)

/-- The text that `sh:pattern` is matched against. -/
def patternText (env : Env) (v : TermId) : Text :=
  let lexical := (env.terms.decode v).getD []
  if lexical.head? = some '"' then (lexical.dropWhile (· = '"')).takeWhile (· ≠ '"') else lexical

def valueMatches (env : Env) (regex : Text) (v : TermId) : Bool :=
  (env.services.matchesRegex (patternText env v) regex).getD false

def checkPattern (regex : Text) : List Violation :=
  args.eachValue .pattern (valueMatches args.env regex)
    fun v => .unmatched (patternText args.env v) regex

/-- `eq_ignore_ascii_case`. -/
def eqIgnoreAsciiCase (a b : Text) : Bool := a.map Char.toLower = b.map Char.toLower

def languageAllowed (env : Env) (allowedTags : List Text) (v : TermId) : Bool :=
  (getLanguageTag env v).any fun tag => allowedTags.any fun t => eqIgnoreAsciiCase t tag

def checkLanguageIn (allowedTags : List Text) : List Violation :=
  args.eachValue .languageIn (languageAllowed args.env allowedTags)
    fun v => .language v (getLanguageTag args.env v) allowedTags

/-- The first tag that was seen before. -/
def repeatedTag : List Text → (seen : List Text) → Option Text
  | [], _ => none
  | tag :: tags, seen => if tag ∈ seen then some tag else repeatedTag tags (tag :: seen)

def checkUniqueLang : List Violation :=
  match repeatedTag (args.values.filterMap (getLanguageTag args.env)) [] with
  | some tag => [args.violation .uniqueLang (.duplicate tag)]
  | none => []

def lexicalForm (raw : Text) : Text := (quotedPart raw).getD raw

def valueText (v : TermId) : Text := lexicalForm ((args.env.terms.decode v).getD [])

def checkMinLength (min : Int) : List Violation :=
  args.eachValue .minLength (fun v => min ≤ (args.valueText v).length)
    fun v => .length (args.valueText v) (args.valueText v).length min

def checkMaxLength (max : Int) : List Violation :=
  args.eachValue .maxLength (fun v => (args.valueText v).length ≤ max)
    fun v => .length (args.valueText v) (args.valueText v).length max

def checkNode (refShapeIri : Text) : Option (List Violation) :=
  args.eachConforming .node (args.conforms · refShapeIri) (.shapes · [refShapeIri])

def checkOr (shapeIris : List Text) : Option (List Violation) :=
  args.eachConforming .or (fun v => shapeIris.anyM (args.conforms v)) (.shapes · shapeIris)

/-- The violations of one value, one for each shape that it does not conform to. -/
def checkAndAt (shapeIris : List Text) (v : TermId) : Option (List Violation) :=
  (Partial.filter (Partial.negate (args.conforms v)) shapeIris).map fun failed =>
    failed.map fun iri => args.violation .and (.shapes v [iri])

def checkAnd (shapeIris : List Text) : Option (List Violation) :=
  (args.values.mapM (args.checkAndAt shapeIris)).map List.flatten

def checkNot (refShapeIri : Text) : Option (List Violation) :=
  args.eachConforming .not (Partial.negate (args.conforms · refShapeIri)) (.shapes · [refShapeIri])

def checkXoneAt (shapeIris : List Text) (v : TermId) : Option (List Violation) :=
  (Partial.filter (args.conforms v) shapeIris).map fun matching =>
    if matching.length ≠ 1 then
      [args.violation .xone (.matching v matching.length shapeIris)]
    else []

def checkXone (shapeIris : List Text) : Option (List Violation) :=
  (args.values.mapM (args.checkXoneAt shapeIris)).map List.flatten

def checkQualified (qvsShapeIri : Text) (minCount maxCount : Option Int) :
    Option (List Violation) :=
  (Partial.filter (args.conforms · qvsShapeIri) args.values).map fun found =>
    let qualifying : Int := found.length
    (match minCount with
    | some min =>
      if qualifying < min then
        [args.violation .qualifiedMinCount (.qualifying min qualifying qvsShapeIri)]
      else []
    | none => []) ++
    (match maxCount with
    | some max =>
      if qualifying > max then
        [args.violation .qualifiedMaxCount (.qualifying max qualifying qvsShapeIri)]
      else []
    | none => [])

def checkIn (allowedValues : List Text) : List Violation :=
  let allowedIds := allowedValues.filterMap (encodeShaclInValue args.env)
  args.eachValue .isIn (· ∈ allowedIds) .notAllowed

def checkHasValue (expectedVal : Text) : List Violation :=
  match encodeShaclInValue args.env expectedVal with
  | some expectedId =>
    if expectedId ∈ args.values then [] else [args.violation .hasValue (.expected expectedVal)]
  | none => []

/-- The checks that compare every value with every value of another path. -/
def checkOrder (constraint : Component) (ok : Option Ordering → Bool) (otherPathIri : Text) :
    List Violation :=
  match args.env.terms.lookupIri otherPathIri with
  | some otherPredId =>
    args.values.flatMap fun v =>
      ((args.otherValues otherPredId).filter fun o =>
        !ok (compareDictionaryValues args.env v o)).map fun o =>
          args.violation constraint (.ordering v o)
  | none => []

def checkLessThan (otherPathIri : Text) : List Violation :=
  args.checkOrder .lessThan (· = some .lt) otherPathIri

def checkGreaterThan (otherPathIri : Text) : List Violation :=
  args.checkOrder .greaterThan (· = some .gt) otherPathIri

def checkLessThanOrEquals (otherPathIri : Text) : List Violation :=
  args.checkOrder .lessThanOrEquals (fun c => c = some .lt || c = some .eq) otherPathIri

/-- `check_closed`: closed shapes are checked by `run_validate`. -/
def checkClosed (_args : ConstraintArgs) : List Violation := []

/-- `check_equals`; the two sets are listed in the order of the rows. -/
def checkEquals (otherPathIri : Text) : List Violation :=
  match args.env.terms.lookupIri otherPathIri with
  | none =>
    if args.values ≠ [] then [args.safeViolation .equals (.noOther otherPathIri)] else []
  | some otherPredId =>
    let mine := args.values.dedup
    let other := (args.otherValues otherPredId).dedup
    let onlyMine := mine.filter (· ∉ other)
    let onlyOther := other.filter (· ∉ mine)
    if onlyMine ≠ [] ∨ onlyOther ≠ [] then
      [args.safeViolation .equals (.unequal otherPathIri onlyMine onlyOther)]
    else []

def checkDisjoint (otherPathIri : Text) : List Violation :=
  match args.env.terms.lookupIri otherPathIri with
  | none => []
  | some otherPredId =>
    let shared := args.values.dedup.filter (· ∈ args.otherValues otherPredId)
    if shared ≠ [] then [args.safeViolation .disjoint (.shared otherPathIri shared)] else []

/-- The four range constraints; a bound that is no IRI of the dictionary is skipped. -/
def checkBound (constraint : Component) (ok : Ordering → Bool) (bound : Text) : List Violation :=
  match args.env.terms.lookupIri bound with
  | none => []
  | some boundId =>
    (args.values.filter fun v =>
      !((compareDictionaryValues args.env v boundId).map ok).getD true).map fun v =>
        args.safeViolation constraint (.outOfRange ((args.env.terms.decode v).getD []) bound)

def checkMinExclusive (bound : Text) : List Violation :=
  args.checkBound .minExclusive (· = .gt) bound

def checkMaxExclusive (bound : Text) : List Violation :=
  args.checkBound .maxExclusive (· = .lt) bound

def checkMinInclusive (bound : Text) : List Violation :=
  args.checkBound .minInclusive (· ≠ .lt) bound

def checkMaxInclusive (bound : Text) : List Violation :=
  args.checkBound .maxInclusive (· ≠ .gt) bound

/-- `str::replace`. The pattern is not empty, so the text gets shorter. -/
def replaceAll (pattern replacement : Text) : (fuel : Nat) → Text → Text
  | 0, s => s
  | _, [] => []
  | fuel + 1, c :: s =>
    match pattern.isPrefixOf? (c :: s) with
    | some rest => replacement ++ replaceAll pattern replacement fuel rest
    | none => c :: replaceAll pattern replacement fuel s

def checkSparqlConstraint (sparqlQuery : Text) (message : Option Text) : List Violation :=
  let focusIri := focusName args.env args.focus
  let boundQuery := replaceAll "$this".toList ('<' :: focusIri ++ ['>']) sparqlQuery.length
    sparqlQuery
  ((args.env.services.sparql boundQuery).getD []).map fun value =>
    { args.violation .sparql (.custom message) with shValue := value }

end ConstraintArgs

def dispatchConstraint (args : ConstraintArgs) : ShapeConstraint → Option (List Violation)
  | .minCount n => some (args.checkMinCount n)
  | .maxCount n => some (args.checkMaxCount n)
  | .datatype dt => some (args.checkDatatype dt)
  | .ofClass cls => some (args.checkClass cls)
  | .nodeKind k => some (args.checkNodeKind k)
  | .pattern rx _ => some (args.checkPattern rx)
  | .languageIn tags => some (args.checkLanguageIn tags)
  | .uniqueLang => some args.checkUniqueLang
  | .node s => args.checkNode s
  | .or ss => args.checkOr ss
  | .and ss => args.checkAnd ss
  | .not s => args.checkNot s
  | .qualifiedValueShape qiri minCount maxCount => args.checkQualified qiri minCount maxCount
  | .isIn vals => some (args.checkIn vals)
  | .hasValue v => some (args.checkHasValue v)
  | .lessThan p => some (args.checkLessThan p)
  | .lessThanOrEquals p => some (args.checkLessThanOrEquals p)
  | .greaterThan p => some (args.checkGreaterThan p)
  | .closed _ => some args.checkClosed
  | .equals p => some (args.checkEquals p)
  | .disjoint p => some (args.checkDisjoint p)
  | .minLength n => some (args.checkMinLength n)
  | .maxLength n => some (args.checkMaxLength n)
  | .xone ss => args.checkXone ss
  | .minExclusive b => some (args.checkMinExclusive b)
  | .maxExclusive b => some (args.checkMaxExclusive b)
  | .minInclusive b => some (args.checkMinInclusive b)
  | .maxInclusive b => some (args.checkMaxInclusive b)
  | .sparqlConstraint query message => some (args.checkSparqlConstraint query message)
  | .validFor duration => some (args.checkValidFor duration)

/-- The arguments of the checks at one focus node. -/
def constraintArgs (env : Env) (st : Store) (conforms : TermId → Text → Option Bool)
    (graphId : TermId) (shapeIri pathIri : Text) (pathId focus : TermId) : ConstraintArgs where
  env := env
  store := st
  focus := focus
  count :=
    if graphId < 0 then countValuesAllGraphs st focus pathId
    else countValuesInGraph st focus pathId graphId
  pathId := pathId
  graphId := graphId
  shapeIri := shapeIri
  pathIri := pathIri
  conforms := conforms

/-- What is reported at one focus node if the path is no IRI of the dictionary. -/
def unknownPathViolations (env : Env) (shapeIri pathIri : Text) (focus : TermId) :
    ShapeConstraint → List Violation
  | .minCount n =>
    if n > 0 then
      [⟨focusName env focus, shapeIri, some pathIri, .minCount, .count n 0, none⟩]
    else []
  | _ => []

def validatePropertyShape (env : Env) (st : Store) (conforms : TermId → Text → Option Bool)
    (ps : PropertyShape) (focusNodes : List TermId) (graphId : TermId) (shapeIri : Text) :
    Option (List Violation) :=
  match env.terms.lookupIri ps.pathIri with
  | none =>
    some (focusNodes.flatMap fun focus =>
      ps.constraints.flatMap (unknownPathViolations env shapeIri ps.pathIri focus))
  | some pathId =>
    (focusNodes.mapM fun focus =>
      let args := constraintArgs env st conforms graphId shapeIri ps.pathIri pathId focus
      (ps.constraints.mapM (dispatchConstraint args)).map List.flatten).map List.flatten

section Returns

variable {args : ConstraintArgs} {c : ShapeConstraint}

theorem ConstraintArgs.isSome_eachConforming {constraint : Component} {ok : TermId → Option Bool}
    {message : TermId → Message} (h : ∀ v, (ok v).isSome = true) :
    (args.eachConforming constraint ok message).isSome = true := by
  rw [eachConforming, Option.isSome_map]
  refine Partial.isSome_filter fun v _ => ?_
  rw [Partial.negate, Option.isSome_map]
  exact h v

/-- A check returns if the question about each shape it refers to is answered. -/
theorem isSome_dispatchConstraint
    (h : ∀ v, ∀ iri ∈ c.references, (args.conforms v iri).isSome = true) :
    (dispatchConstraint args c).isSome = true := by
  cases c with
  | node iri =>
    exact ConstraintArgs.isSome_eachConforming fun v => h v iri List.mem_cons_self
  | or iris => exact ConstraintArgs.isSome_eachConforming fun v => Partial.isSome_anyM (h v)
  | and iris =>
    rw [dispatchConstraint, ConstraintArgs.checkAnd, Option.isSome_map]
    refine Partial.isSome_mapM fun v _ => ?_
    rw [ConstraintArgs.checkAndAt, Option.isSome_map]
    refine Partial.isSome_filter fun iri hiri => ?_
    rw [Partial.negate, Option.isSome_map]
    exact h v iri hiri
  | not iri =>
    refine ConstraintArgs.isSome_eachConforming fun v => ?_
    rw [Partial.negate, Option.isSome_map]
    exact h v iri List.mem_cons_self
  | qualifiedValueShape iri minCount maxCount =>
    rw [dispatchConstraint, ConstraintArgs.checkQualified, Option.isSome_map]
    exact Partial.isSome_filter fun v _ => h v iri List.mem_cons_self
  | xone iris =>
    rw [dispatchConstraint, ConstraintArgs.checkXone, Option.isSome_map]
    refine Partial.isSome_mapM fun v _ => ?_
    rw [ConstraintArgs.checkXoneAt, Option.isSome_map]
    exact Partial.isSome_filter fun iri hiri => h v iri hiri
  | _ => rfl

/-- More answers do not change what a check returns. -/
theorem below_dispatchConstraint {conforms : TermId → Text → Option Bool}
    (h : ∀ v iri, Partial.Below (args.conforms v iri) (conforms v iri)) :
    Partial.Below (dispatchConstraint args c)
      (dispatchConstraint { args with conforms := conforms } c) := by
  have each (constraint : Component) {ok ok' : TermId → Option Bool} (message : TermId → Message)
      (le : ∀ v, Partial.Below (ok v) (ok' v)) :
      Partial.Below (args.eachConforming constraint ok message)
        (({ args with conforms := conforms } : ConstraintArgs).eachConforming constraint ok'
          message) :=
    (Partial.below_filter (Partial.below_negate le)).map _
  cases c with
  | node iri => exact each .node _ fun v => h v iri
  | or iris => exact each .or _ fun v => Partial.below_anyM (h v)
  | and iris =>
    exact (Partial.below_mapM fun v =>
      (Partial.below_filter (Partial.below_negate (h v))).map _).map _
  | not iri => exact each .not _ (Partial.below_negate fun v => h v iri)
  | qualifiedValueShape iri minCount maxCount => exact (Partial.below_filter (h · iri)).map _
  | xone iris =>
    exact (Partial.below_mapM fun v => (Partial.below_filter (h v)).map _).map _
  | _ => exact .refl _

variable {env : Env} {st : Store} {ps : PropertyShape} {focusNodes : List TermId}
  {graphId : TermId} {shapeIri : Text} {conforms conforms' : TermId → Text → Option Bool}

theorem isSome_validatePropertyShape
    (h : ∀ v, ∀ c ∈ ps.constraints, ∀ iri ∈ c.references, (conforms v iri).isSome = true) :
    (validatePropertyShape env st conforms ps focusNodes graphId shapeIri).isSome = true := by
  rw [validatePropertyShape]
  split
  · rfl
  · rw [Option.isSome_map]
    refine Partial.isSome_mapM fun focus _ => ?_
    rw [Option.isSome_map]
    exact Partial.isSome_mapM fun c hc => isSome_dispatchConstraint fun v => h v c hc

theorem below_validatePropertyShape
    (h : ∀ v iri, Partial.Below (conforms v iri) (conforms' v iri)) :
    Partial.Below (validatePropertyShape env st conforms ps focusNodes graphId shapeIri)
      (validatePropertyShape env st conforms' ps focusNodes graphId shapeIri) := by
  rw [validatePropertyShape, validatePropertyShape]
  split
  · exact .refl _
  · exact (Partial.below_mapM fun focus =>
      (Partial.below_mapM fun c => below_dispatchConstraint h).map _).map _

end Returns

end PgRipple.Shacl
