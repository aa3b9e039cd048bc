import PgRipple.Lib.Leapfrog
import PgRipple.Sparql.Select
import Mathlib.Data.Prod.Lex

/-!
# The Leapfrog Triejoin executor

A flat basic graph pattern whose variables form a cycle is not translated to SQL but
joined in memory: the subjects and objects of each predicate are loaded, and the variables
are bound one after another, each to the values that all patterns with it allow.

The executor reads the triples of all graphs. A subject or an object that is not a
variable becomes the placeholder `_`, and the modifiers around the pattern are skipped.
-/

namespace PgRipple.Sparql

open Storage

/-- The variable of the subject, the IRI of the predicate, the variable of the object. -/
abbrev FlatBgpTriple := Option String × Option String × Option String

def TriplePattern.flat (tp : TriplePattern) : FlatBgpTriple :=
  let sVar := tp.subject.variable?
  let pIri := match tp.predicate with
    | .namedNode iri => some iri
    | .var _ => none
  let oVar := tp.object.variable?
  (sVar, pIri, oVar)

/-- `extract_flat_bgp`. -/
def extractFlatBgp : SelectPattern → Option (List FlatBgpTriple)
  | .bgp patterns => some (patterns.map TriplePattern.flat)
  | .project inner _ | .distinct inner | .reduced inner | .orderBy inner | .slice inner _ _ =>
    extractFlatBgp inner
  | .other _ _ => none

section Cycle

/-- The neighbours of each variable, in the order in which they are found. -/
abbrev Adjacency := List (String × List String)

def Adjacency.neighbors (adj : Adjacency) (v : String) : List String := (adj.lookup v).getD []

/-- `adj.entry(a).or_default().insert(b)`. -/
def Adjacency.addNeighbor (adj : Adjacency) (a b : String) : Adjacency :=
  if (adj.lookup a).isSome then
    adj.map fun entry => if entry.1 = a then (a, entry.2.insert b) else entry
  else adj ++ [(a, [b])]

/-- The pairs `i < j` of a pattern's variables. -/
def addPairs (adj : Adjacency) : List String → Adjacency
  | [] => adj
  | a :: vars =>
    let adj := vars.foldl (fun adj b =>
      if a = b then adj else (adj.addNeighbor a b).addNeighbor b a) adj
    addPairs adj vars

/-- What the search has found, and the sets `visited` and `rec_stack`. -/
structure DfsState where
  found : Bool
  visited : List String
  recStack : List String

/-- `has_cycle_dfs`. Every call visits a new node, so the number of nodes is enough fuel. -/
def hasCycleDfs (adj : Adjacency) : (fuel : Nat) → String → Option String → DfsState → DfsState
  | 0, _, _, state => state
  | fuel + 1, node, parent, state =>
    let state := { state with visited := node :: state.visited, recStack := node :: state.recStack }
    let state := (adj.neighbors node).foldl (fun state neighbor =>
      if state.found || parent = some neighbor then state
      else if neighbor ∉ state.visited then hasCycleDfs adj fuel neighbor (some node) state
      else if neighbor ∈ state.recStack then { state with found := true }
      else state) state
    if state.found then state else { state with recStack := state.recStack.erase node }

/-- `detect_cyclic_bgp`. The nodes are searched in an order that the answer does not depend
on. -/
def detectCyclicBgp (patternVars : List (List String)) : Bool :=
  if patternVars.length < 3 then false
  else
    let adj := patternVars.foldl addPairs []
    let nodes := adj.map Prod.fst
    (nodes.foldl (fun state node =>
      if state.found || node ∈ state.visited then state
      else hasCycleDfs adj nodes.length node none state) ⟨false, [], []⟩).found

end Cycle

/-- `CyclicBgpPattern`. -/
structure CyclicBgpPattern where
  subjectVar : String
  predId : TermId
  objectVar : String
  deriving DecidableEq, Repr

/-- `EdgeData`: pairs sorted by subject and by object, and where the runs of each are. -/
structure EdgeData where
  byS : List (TermId × TermId)
  byO : List (TermId × TermId)
  sRanges : List (TermId × Nat × Nat)
  oRanges : List (TermId × Nat × Nat)

/-- `sort_unstable` and `dedup` on pairs. -/
def sortPairs (pairs : List (TermId × TermId)) : List (TermId × TermId) :=
  (Leapfrog.sortDedup (pairs.map toLex)).map ofLex

namespace EdgeData

/-- The index of some edges. -/
def ofEdges (edges : List (TermId × TermId)) : EdgeData :=
  let byS := sortPairs edges
  let byO := sortPairs (byS.map Prod.swap)
  ⟨byS, byO, Leapfrog.buildRanges byS, Leapfrog.buildRanges byO⟩

/-- `SELECT s, o FROM vp_{p} UNION ALL SELECT s, o FROM vp_{p}_delta`, or the rows of `vp_rare`
for a predicate without a table. -/
def loadEdges (st : Store) (p : TermId) : List (TermId × TermId) :=
  let keys := if st.isDedicated p then viewKeys st p ++ (st.tables p).delta.rows.map Row.key
    else rareKeys st p
  keys.map fun k => (k.s, k.o)

/-- `load_from_vp`. -/
def loadFromVp (st : Store) (p : TermId) : Option EdgeData :=
  match loadEdges st p with
  | [] => none
  | edges => some (ofEdges edges)

def allS (ed : EdgeData) : List TermId := ed.sRanges.map Prod.fst

def allO (ed : EdgeData) : List TermId := ed.oRanges.map Prod.fst

def oForS (ed : EdgeData) (s : TermId) : List TermId := Leapfrog.valuesOf ed.byS ed.sRanges s

def sForO (ed : EdgeData) (o : TermId) : List TermId := Leapfrog.valuesOf ed.byO ed.oRanges o

end EdgeData

/-- `LftiBinding`: the id of each variable that is bound. -/
abbrev LftiBinding := String → Option TermId

/-- The values that a pattern allows for a variable, if the variable is in it. -/
def candidates (edgeCache : TermId → Option EdgeData) (binding : LftiBinding) (v : String)
    (pat : CyclicBgpPattern) : Option (List TermId) := do
  let ed ← edgeCache pat.predId
  if pat.subjectVar = v then
    match binding pat.objectVar with
    | some o => some (ed.sForO o)
    | none => some ed.allS
  else if pat.objectVar = v then
    match binding pat.subjectVar with
    | some s => some (ed.oForS s)
    | none => some ed.allO
  else none

/-- `lfti_recurse`, over the variables that are left. -/
def lftiRecurse (patterns : List CyclicBgpPattern) (edgeCache : TermId → Option EdgeData) :
    List String → LftiBinding → List LftiBinding
  | [], binding => [binding]
  | v :: rest, binding =>
    match patterns.filterMap (candidates edgeCache binding v) with
    | [] => lftiRecurse patterns edgeCache rest binding
    | iters =>
      (Leapfrog.intersect (iters.map Leapfrog.sortDedup)).flatMap fun val =>
        lftiRecurse patterns edgeCache rest (Function.update binding v (some val))

/-- `execute_leapfrog_triejoin`. -/
def executeLeapfrogTriejoin (st : Store) (patterns : List CyclicBgpPattern)
    (order : List String) : Option (List LftiBinding) :=
  if patterns = [] ∨ order = [] then none
  else if patterns.all fun pat => (EdgeData.loadFromVp st pat.predId).isSome then
    some (lftiRecurse patterns (EdgeData.loadFromVp st) order fun _ => none)
  else none

/-- The settings that decide whether the executor is tried. -/
structure WcojSettings where
  wcojEnabled : Bool
  wcojMinTables : Nat
  wcojMinCardinality : Nat

/-- `card as usize`. -/
def asUsize (card : Int) : Nat := (card % 2 ^ 64).toNat

/-- The pattern of a triple; `none` is an unbound or unknown predicate. -/
def cyclicPattern (env : Env) (triple : FlatBgpTriple) : Option CyclicBgpPattern := do
  let iri ← triple.2.1
  let predId ← env.lookupIri iri
  some ⟨triple.1.getD "_", predId, triple.2.2.getD "_"⟩

/-- The variables of each pattern. -/
def patternVars (bgpTriples : List FlatBgpTriple) : List (List String) :=
  bgpTriples.map fun t => t.1.toList ++ t.2.2.toList

/-- All different variables in order of appearance. -/
def variableOrder (vars : List (List String)) : List String :=
  vars.flatten.foldl (fun order v => if v ∈ order then order else order ++ [v]) []

/-- `try_leapfrog_select`. -/
def tryLeapfrogSelect (settings : WcojSettings) (env : Env) (st : Store) (query : SelectPattern) :
    Option (List LftiBinding) :=
  if !settings.wcojEnabled then none
  else do
    let bgpTriples ← extractFlatBgp query
    if bgpTriples = [] ∨ bgpTriples.length < settings.wcojMinTables then none
    else
      if !detectCyclicBgp (patternVars bgpTriples) then none
      else
        let patterns ← bgpTriples.mapM (cyclicPattern env)
        if 0 < settings.wcojMinCardinality ∧
            patterns.any (fun pat =>
              asUsize (st.tripleCount pat.predId) < settings.wcojMinCardinality) then none
        else executeLeapfrogTriejoin st patterns (variableOrder (patternVars bgpTriples))

/-- `decode_lfti_bindings_to_jsonb`. -/
def decodeLftiBindingsToJsonb (decode : TermId → Option String) (bindings : List LftiBinding) :
    List JsonObject :=
  bindings.map fun binding v =>
    (binding v).map fun id => .string ((decode id).getD ("_id_" ++ toString id))

end PgRipple.Sparql
