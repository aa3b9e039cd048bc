import PgRipple.Sparql.Fragment

/-!
# Basic graph patterns

`translate_bgp` puts the triple patterns into a cheap order, drops repeated ones, and adds
a `FROM` item for each. The first occurrence of a variable binds it to a column, every
further one adds an equation. A blank node is a variable with a name of its own.

A constant that the dictionary does not know turns into `FALSE`, and a predicate that it
does not know into an empty source.
-/

namespace PgRipple.Sparql

open Storage

/-- `is_ground`. -/
def TermPattern.isGround : TermPattern → Bool
  | .namedNode _ | .literal _ | .triple _ _ _ => true
  | _ => false

/-- `is_variable`. -/
def TermPattern.variable? : TermPattern → Option String
  | .var v => some v
  | _ => none

/-- The variables that a placed pattern binds. -/
def TriplePattern.binds (tp : TriplePattern) : List String :=
  tp.subject.variable?.toList ++
    (match tp.predicate with
      | .var v => [v]
      | .namedNode _ => []) ++
    tp.object.variable?.toList

section Reorder

variable {κ : Type} [LT κ] [DecidableLT κ]

/-- `estimate_pattern_cost`, from statistics: of a predicate, with its subject and its
object bound or not. -/
abbrev PatternCost (κ : Type) := Option TermId → Bool → Bool → κ

/-- The cost of a pattern after some variables were bound. -/
def TriplePattern.cost (env : Env) (estimate : PatternCost κ) (bound : List String)
    (tp : TriplePattern) : κ :=
  let isBound (t : TermPattern) := t.isGround || t.variable?.any (· ∈ bound)
  let pred := match tp.predicate with
    | .namedNode iri => env.lookupIri iri
    | .var _ => none
  estimate pred (isBound tp.subject) (isBound tp.object)

/-- The index of the first pattern of least cost. Costs are finite, so the first pattern
beats `f64::MAX`. -/
def bestIndex (cost : TriplePattern → κ) : List TriplePattern → Nat
  | [] => 0
  | tp :: tps => go tps 1 0 (cost tp)
where
  go : List TriplePattern → Nat → Nat → κ → Nat
  | [], _, best, _ => best
  | tp :: tps, i, best, bestCost =>
    if cost tp < bestCost then go tps (i + 1) i (cost tp) else go tps (i + 1) best bestCost

/-- The greedy loop; `n` is the number of patterns to place. -/
def placePatterns (env : Env) (estimate : PatternCost κ) :
    Nat → List String → List TriplePattern → List TriplePattern
  | 0, _, _ => []
  | n + 1, bound, remaining =>
    let best := bestIndex (TriplePattern.cost env estimate bound) remaining
    match remaining[best]? with
    | none => []
    | some tp => tp :: placePatterns env estimate n (bound ++ tp.binds) (remaining.eraseIdx best)

/-- `reorder_bgp`, with the setting `bgp_reorder`. -/
def reorderBgp (env : Env) (bgpReorder : Bool) (estimate : PatternCost κ)
    (patterns : List TriplePattern) : List TriplePattern :=
  if !bgpReorder || patterns.length < 2 then patterns
  else placePatterns env estimate patterns.length [] patterns

end Reorder

/-- The bindings and conditions that `bind_term` adds to. -/
structure Binds where
  bindings : List (String × ColExpr)
  conditions : List Cond

namespace Binds

def require (b : Binds) (c : Cond) : Binds := { b with conditions := b.conditions ++ [c] }

/-- A name that has a column must have the same value here; otherwise this is its column. -/
def bindName (b : Binds) (name : String) (e : ColExpr) : Binds :=
  match b.bindings.lookup name with
  | some existing => b.require (.eq e existing)
  | none => { b with bindings := b.bindings ++ [(name, e)] }

end Binds

/-- `ground_term_id`. -/
def groundTermId (env : Env) : TermPattern → Option TermId
  | .namedNode iri => env.lookupIri iri
  | .literal lit => some (env.literalId lit)
  | .triple s p o => do
    let s ← groundTermId env s
    let p ← match p with
      | .namedNode iri => env.lookupIri iri
      | .var _ => none
    let o ← groundTermId env o
    env.lookupQuotedTriple s p o
  | .var _ => none
  | .blankNode _ => none

/-- What a component of a quoted triple pattern asks of a dictionary row: a condition on
the column, or a name for it. -/
inductive QtComponent where
  | const (id : TermId)
  | never
  | name (name : String)
  deriving DecidableEq, Repr

/-- `process_qt_component`. Nested quoted triples never match. -/
def processQtComponent (env : Env) : TermPattern → QtComponent
  | .namedNode iri => (env.lookupIri iri).elim .never .const
  | .literal lit => .const (env.literalId lit)
  | .var v => .name v
  | .blankNode label => .name (env.sanitizeSqlIdent ("_bn_" ++ "_:" ++ label))
  | .triple _ _ _ => .never

def processQtPredicate (env : Env) : NamedNodePattern → QtComponent
  | .namedNode iri => (env.lookupIri iri).elim .never .const
  | .var v => .name v

def QtComponent.accepts (x : TermId) : QtComponent → Bool
  | .const id => x = id
  | .never => false
  | .name _ => true

/-- `{e} IN (SELECT id FROM _pg_ripple.dictionary WHERE kind = 5 AND …)`. -/
def Cond.inQuoted (e : ColExpr) (s p o : QtComponent) : Cond := fun db j =>
  db.quoted.any fun r =>
    e db j = some r.id && s.accepts r.qtS && p.accepts r.qtP && o.accepts r.qtO

/-- `(SELECT {column} FROM _pg_ripple.dictionary WHERE id = {e})`. -/
def quotedColumn (qt : QuotedRow → TermId) (e : ColExpr) : ColExpr := fun db j =>
  (db.quoted.find? fun r => e db j = some r.id).map qt

/-- A component's name is bound unless it has a column already. -/
def Binds.bindComponent (b : Binds) (qt : QuotedRow → TermId) (e : ColExpr) :
    QtComponent → Binds
  | .name name =>
    if (b.bindings.lookup name).isSome then b
    else { b with bindings := b.bindings ++ [(name, quotedColumn qt e)] }
  | _ => b

/-- `bind_term`. -/
def bindTerm (env : Env) (n : Alias) (c : Col) (t : TermPattern) (b : Binds) : Binds :=
  match t with
  | .var v => b.bindName v (column n c)
  | .blankNode label => b.bindName (env.blankName label) (column n c)
  | .namedNode iri =>
    match env.lookupIri iri with
    | some id => b.require (.eqId (column n c) id)
    | none => b.require .never
  | .literal lit => b.require (.eqId (column n c) (env.literalId lit))
  | .triple s p o =>
    match groundTermId env (.triple s p o) with
    | some id => b.require (.eqId (column n c) id)
    | none =>
      let qs := processQtComponent env s
      let qp := processQtPredicate env p
      let qo := processQtComponent env o
      let b := b.require (.inQuoted (column n c) qs qp qo)
      ((b.bindComponent QuotedRow.qtS (column n c) qs).bindComponent QuotedRow.qtP (column n c)
        qp).bindComponent QuotedRow.qtO (column n c) qo

/-- The place of a predicate that is written as an IRI. -/
def predicateSource (env : Env) (iri : String) : VpSource :=
  match env.lookupIri iri with
  | none => .empty
  | some p => env.vpSource p

/-- What one pattern adds, under alias `n`; `none` is error `PT0601`. -/
def translateTriple (env : Env) (graphFilter : Option TermId) (n : Nat) (tp : TriplePattern)
    (frag : Fragment) : Option Fragment :=
  let b : Binds := ⟨frag.bindings, frag.conditions⟩
  match tp.predicate with
  | .namedNode iri =>
    let source := tableSource (predicateSource env iri) graphFilter (env.serviceExcl graphFilter)
    let b := bindTerm env n .o tp.object (bindTerm env n .s tp.subject b)
    some ⟨frag.fromItems ++ [(.counted n, source)], b.conditions, b.bindings⟩
  | .var v =>
    match env.unionPredicates with
    | none => none
    | some preds =>
      let source := unionSource preds graphFilter (env.serviceExcl graphFilter)
      let b := b.bindName v (column n .p)
      let b := bindTerm env n .o tp.object (bindTerm env n .s tp.subject b)
      some ⟨frag.fromItems ++ [(.counted n, source)], b.conditions, b.bindings⟩

/-- The loop over the patterns. Patterns are compared by their text, which determines
them. -/
def translateTriples (env : Env) (graphFilter : Option TermId) :
    List TriplePattern → List TriplePattern → Nat → Fragment → Option (Fragment × Nat)
  | [], _, n, frag => some (frag, n)
  | tp :: tps, seen, n, frag =>
    if tp ∈ seen then translateTriples env graphFilter tps seen n frag
    else do
      let frag ← translateTriple env graphFilter n tp frag
      translateTriples env graphFilter tps (tp :: seen) (n + 1) frag

/-- `translate_bgp`: the fragment and the next alias. -/
def translateBgp {κ : Type} [LT κ] [DecidableLT κ] (env : Env) (bgpReorder : Bool)
    (estimate : PatternCost κ) (graphFilter : Option TermId) (n : Nat)
    (patterns : List TriplePattern) : Option (Fragment × Nat) :=
  translateTriples env graphFilter (reorderBgp env bgpReorder estimate patterns) [] n .empty

end PgRipple.Sparql
