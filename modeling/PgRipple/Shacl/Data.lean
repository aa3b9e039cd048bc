import PgRipple.Dictionary.Rows
import PgRipple.Storage.Store
import PgRipple.Shacl.Shape

/-!
# What validation reads

The queries of `validator/property.rs`, over the store and over the dictionary as one
backend sees it. An id that `encode_typed_literal` hands out for a new literal occurs in
no triple, so the write to the dictionary is left out.
-/

namespace PgRipple.Shacl

open Storage
open Dictionary (Text TermInfo Kind isWhitespace trim isInline unpackType)

/-- The answers of the dictionary to one backend. -/
structure Terms where
  lookupIri : Text → Option TermId
  /-- A plain literal: `kind = 2 AND lang IS NULL AND datatype IS NULL`. -/
  lookupPlain : Text → Option TermId
  encodeTypedLiteral : Text → Text → TermId
  encodeLangLiteral : Text → Text → TermId
  /-- The row of an id. -/
  row : TermId → Option TermInfo
  /-- `decode`, whose cache may hold another text than the row. -/
  decode : TermId → Option Text

/-- What validation takes from PostgreSQL, the standard library and the SPARQL engine. -/
structure Services where
  /-- `SELECT $1 ~ $2`. -/
  matchesRegex : Text → Text → Option Bool
  /-- `partial_cmp` of two texts that both parse as `f64`. -/
  compareNumbers : Text → Text → Option (Option Ordering)
  /-- `str::to_lowercase`. -/
  toLowercase : Text → Text
  /-- The number of closed facts of a subject and predicate that exceed a duration. -/
  exceeding : TermId → TermId → Text → Int
  /-- The first column of each row, if it is a text; `none` stands for a failed query. -/
  sparql : Text → Option (List (Option Text))

/-- Everything but the store. -/
structure Env where
  terms : Terms
  services : Services

def rdfType : Text := "http://www.w3.org/1999/02/22-rdf-syntax-ns#type".toList

/-- The rows of `get_vp_table_name`. -/
def vpTable (st : Store) (predId : TermId) : List Key :=
  if st.isDedicated predId then (st.tables predId).htapView.map Row.key
  else (st.rare.rows.filter fun r => r.quad.p = predId).map fun r => r.quad.key

/-- The condition `g = $2`, which a negative graph id turns off. -/
def inScope (graphId : TermId) (k : Key) : Bool := graphId < 0 || k.g = graphId

def countValuesInGraph (st : Store) (focus pathId graphId : TermId) : Int :=
  ((vpTable st pathId).filter fun k => k.s = focus && k.g = graphId).length

def countValuesAllGraphs (st : Store) (focus pathId : TermId) : Int :=
  ((vpTable st pathId).filter fun k => k.s = focus).length

def getValueIds (st : Store) (focus pathId graphId : TermId) : List TermId :=
  ((vpTable st pathId).filter fun k => k.s = focus && inScope graphId k).map Key.o

def getSubjectsWithType (st : Store) (rdfTypeId classId graphId : TermId) : List TermId :=
  ((vpTable st rdfTypeId).filter fun k => k.o = classId && inScope graphId k).map Key.s

def getSubjectsOfPredicate (st : Store) (predId graphId : TermId) : List TermId :=
  (((vpTable st predId).filter (inScope graphId)).map Key.s).dedup

def getObjectsOfPredicate (st : Store) (predId graphId : TermId) : List TermId :=
  (((vpTable st predId).filter (inScope graphId)).map Key.o).dedup

/-- `value_has_rdf_type`, in any graph. -/
def valueHasRdfType (st : Store) (valueId rdfTypePredId classId : TermId) : Bool :=
  (vpTable st rdfTypePredId).any fun k => k.s = valueId && k.o = classId

def collectFocusNodes (env : Env) (st : Store) (target : ShapeTarget) (graphId : TermId) :
    List TermId :=
  match target with
  | .none => []
  | .node iris => iris.filterMap env.terms.lookupIri
  | .ofClass classIri =>
    match env.terms.lookupIri classIri, env.terms.lookupIri rdfType with
    | some classId, some rdfTypeId => getSubjectsWithType st rdfTypeId classId graphId
    | _, _ => []
  | .subjectsOf predIri =>
    match env.terms.lookupIri predIri with
    | some predId => getSubjectsOfPredicate st predId graphId
    | none => []
  | .objectsOf predIri =>
    match env.terms.lookupIri predIri with
    | some predId => getObjectsOfPredicate st predId graphId
    | none => []

/-- `get_all_predicate_iris_for_node`: first the predicates in `vp_rare`, then the
dedicated ones. -/
def getAllPredicateIrisForNode (env : Env) (st : Store) (focus graphId : TermId) : List Text :=
  let rare := ((st.rare.rows.filter fun r =>
    r.quad.s = focus && inScope graphId r.quad.key).map fun r => r.quad.p).dedup
  let dedicated := st.dedicatedPredicates.filter fun p =>
    ((st.tables p).htapView.map Row.key).any fun k => k.s = focus && inScope graphId k
  (rare ++ dedicated).filterMap env.terms.decode

/-- `encode_shacl_in_value`: a member of `sh:in`, or the value of `sh:hasValue`. -/
def encodeShaclInValue (env : Env) (val : Text) : Option TermId :=
  match val with
  | '"' :: inner =>
    if '"' ∈ inner then
      let backwards := inner.reverse
      let strVal := (backwards.dropWhile (· ≠ '"')).tail.reverse
      let rest := trim (backwards.takeWhile (· ≠ '"')).reverse
      match "^^<".toList.isPrefixOf? rest, rest with
      | some dtRest, _ => some (env.terms.encodeTypedLiteral strVal (dtRest.rdropWhile (· = '>')))
      | none, '@' :: langRest =>
        let word := (langRest.dropWhile isWhitespace).takeWhile fun c => !isWhitespace c
        some (env.terms.encodeLangLiteral strVal (if word = [] then langRest else word))
      | none, _ => env.terms.lookupPlain strVal
    else none
  | _ => env.terms.lookupIri val

def xsd (name : String) : Text := "http://www.w3.org/2001/XMLSchema#".toList ++ name.toList

def valueHasDatatype (env : Env) (valueId : TermId) (dtIri : Text) : Bool :=
  if isInline valueId then
    let type := unpackType valueId
    if type = Dictionary.typeInteger then dtIri = xsd "integer"
    else if type = Dictionary.typeBoolean then dtIri = xsd "boolean"
    else if type = Dictionary.typeDatetime then dtIri = xsd "dateTime"
    else if type = Dictionary.typeDate then dtIri = xsd "date"
    else false
  else
    (env.terms.row valueId).any fun t =>
      t.datatype = some dtIri || (dtIri = xsd "string" && t.kind = .literal && t.datatype = none)

/-- The names that `sh:nodeKind` can have; any other is met by no value. -/
def valueHasNodeKind (env : Env) (valueId : TermId) (kindIri : Text) : Bool :=
  let kind := (env.terms.row valueId).map TermInfo.kind
  let isIri := kind = some .iri
  let isBlank := kind = some .blank
  let isLiteral := kind = some .literal || kind = some .typedLiteral || kind = some .langLiteral
  let name := ("http://www.w3.org/ns/shacl#".toList.isPrefixOf? kindIri).getD kindIri
  if name = "IRI".toList then isIri
  else if name = "BlankNode".toList then isBlank
  else if name = "Literal".toList then isLiteral
  else if name = "BlankNodeOrIRI".toList then isBlank || isIri
  else if name = "BlankNodeOrLiteral".toList then isBlank || isLiteral
  else if name = "IRIOrLiteral".toList then isIri || isLiteral
  else false

def getLanguageTag (env : Env) (valueId : TermId) : Option Text :=
  (env.terms.row valueId).bind TermInfo.lang

/-- The text between the first quote and the next, of a text that starts with a quote. -/
def quotedPart : Text → Option Text
  | '"' :: rest => if '"' ∈ rest then some (rest.takeWhile (· ≠ '"')) else none
  | _ => none

/-- The order of `str`. -/
def compareTexts (a b : Text) : Ordering :=
  if a = b then .eq else if a < b then .lt else .gt

def compareDictionaryValues (env : Env) (a b : TermId) : Option Ordering :=
  (env.terms.decode a).bind fun aStr => (env.terms.decode b).bind fun bStr =>
    match (quotedPart aStr).bind fun x => (quotedPart bStr).bind fun y =>
        env.services.compareNumbers x y with
    | some numeric => numeric
    | none => some (compareTexts aStr bStr)

/-- `decode_id_safe`. -/
def decodeIdSafe (env : Env) (id : TermId) : Text :=
  (env.terms.decode id).getD ("<decoded-id:".toList ++ (toString id).toList ++ ">".toList)

/-- The name of a focus node in most reports. -/
def focusName (env : Env) (id : TermId) : Text :=
  (env.terms.decode id).getD ("_id_".toList ++ (toString id).toList)

end PgRipple.Shacl
