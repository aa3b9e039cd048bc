import PgRipple.Datalog.Compiler

/-!
# Rule sets before evaluation

`run_inference_seminaive` changes the rules it was given in two ways. With
`sameas_reasoning` on, every constant is replaced by the least id of its
`owl:sameAs` class. Then `check_subsumption` drops rules whose body predicates
contain those of another rule for the same head predicate, compared as multisets
and without looking at the terms.

The union-find structure is represented by its `find` function. The source counts
the members of a class by a traversal of its own; the classes are the same.
-/

namespace PgRipple.Datalog

namespace UnionFind

/-- `UnionFind::union`, on the `find` function: the lower root represents both. -/
def union (find : TermId → TermId) (pair : TermId × TermId) : TermId → TermId :=
  let rx := find pair.1
  let ry := find pair.2
  fun z => if find z = max rx ry then min rx ry else find z

end UnionFind

/-- The pairs that `compute_sameas_map` collects. -/
def sameasPairs (ctx : Context) : List (TermId × TermId) :=
  ((ctx.stored ctx.ext.owlSameAs).map fun k => (k.s, k.o)).filter fun (s, o) => s ≠ 0 ∧ o ≠ 0

/-- `compute_sameas_map`, read by `canonicalize_id`. A class above the limit of
`sameas_max_cluster_size` switches canonicalization off. -/
def canonicalizeId (ctx : Context) : TermId → TermId :=
  let pairs := sameasPairs ctx
  let find := pairs.foldl UnionFind.union id
  let ids := (pairs.flatMap fun (s, o) => [s, o]).dedup
  let limit := ctx.settings.sameasMaxClusterSize
  let tooLarge := ids.any fun x => limit < ((ids.filter fun y => find y = find x).length : Int)
  if 0 < limit ∧ tooLarge then id else find

section RewriteTerms

variable (canonical : TermId → TermId)

/-- `rewrite_term`. -/
def rewriteTerm : Term → Term
  | .const id => .const (canonical id)
  | t => t

/-- `rewrite_atom`. -/
def rewriteAtom (a : Atom) : Atom :=
  ⟨rewriteTerm canonical a.s, rewriteTerm canonical a.p, rewriteTerm canonical a.o,
    rewriteTerm canonical a.g⟩

/-- `rewrite_body_literal`. -/
def rewriteBodyLiteral : BodyLiteral → BodyLiteral
  | .positive a => .positive (rewriteAtom canonical a)
  | .negated a => .negated (rewriteAtom canonical a)
  | .compare l op r => .compare (rewriteTerm canonical l) op (rewriteTerm canonical r)
  | .stringBuiltin b => .stringBuiltin b
  | .assign v l op r => .assign v (rewriteTerm canonical l) op (rewriteTerm canonical r)
  | .aggregate a => .aggregate { a with atom := rewriteAtom canonical a.atom }
  | .temporalFilter f => .temporalFilter f

/-- `apply_sameas_to_rules`, for one rule. -/
def rewriteRule (r : Rule) : Rule :=
  { r with
    head := r.head.map (rewriteAtom canonical)
    body := r.body.map (rewriteBodyLiteral canonical) }

end RewriteTerms

/-- The rules after canonicalization. -/
def canonicalRules (ctx : Context) (rules : List Rule) : List Rule :=
  if ctx.settings.sameasReasoning then rules.map (rewriteRule (canonicalizeId ctx)) else rules

/-- The positive body predicates of a rule. -/
def Rule.bodyPreds (r : Rule) : List TermId := r.positiveAtoms.filterMap Atom.pred?

/-- `is_multiset_subset`: take the elements of `a` out of `b` one by one. -/
def isMultisetSubset (a b : List TermId) : Bool :=
  (a.foldlM (fun left x => if x ∈ left then some (left.erase x) else none) b).isSome

/-- Rule `r1` at index `i` makes rule `r2` at index `j` redundant. -/
def subsumes (r1 : Rule) (i : Nat) (r2 : Rule) (j : Nat) : Bool :=
  let b1 := r1.bodyPreds
  let b2 := r2.bodyPreds
  i ≠ j && r1.headPred.isSome && r1.headPred = r2.headPred &&
    ((b1.length < b2.length && isMultisetSubset b1 b2) ||
      (i < j && b1.length = b2.length && isMultisetSubset b1 b2 && isMultisetSubset b2 b1))

/-- `check_subsumption`: the texts of the eliminated rules. -/
def checkSubsumption (rules : List Rule) : List String :=
  (rules.zipIdx.filter fun (r2, j) => rules.zipIdx.any fun (r1, i) => subsumes r1 i r2 j).map
    fun (r2, _) => r2.ruleText

/-- The rules that evaluation keeps. -/
def activeRules (rules : List Rule) : List Rule :=
  rules.filter fun r => r.ruleText ∉ checkSubsumption rules

end PgRipple.Datalog
