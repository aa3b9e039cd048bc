import Mathlib.Data.List.Dedup
import PgRipple.Storage.Store

/-!
# Rules

The rule representation that the parser hands to every later stage. Constants are
dictionary ids already. `StringBuiltin` is generic in what stands at its argument
positions: the parser puts terms there, the compiler SQL expressions, and a
valuation numbers.

`Rule` leaves out the `@weight` annotation, which only the confidence table reads.
-/

namespace PgRipple.Datalog

/-- A term of a rule. -/
inductive Term where
  /-- `?x`, shared by the atoms of a rule. -/
  | var (v : String)
  /-- A dictionary-encoded IRI or literal. -/
  | const (id : TermId)
  /-- `?_`. -/
  | wildcard
  /-- The graph position of an atom without a `GRAPH` clause. -/
  | defaultGraph
  deriving DecidableEq, Repr

/-- A triple pattern. -/
structure Atom where
  s : Term
  p : Term
  o : Term
  g : Term
  deriving DecidableEq, Repr

inductive CompareOp where
  | gt | gte | lt | lte | eq | neq
  deriving DecidableEq, Repr

inductive ArithOp where
  | add | sub | mul | div
  deriving DecidableEq, Repr

/-- The string built-ins, with arguments of type `τ`. -/
inductive StringBuiltin (τ : Type) where
  | strlen (a : τ) (op : CompareOp) (r : τ)
  | regex (a : τ) (pattern : String)
  | trigramSimilarity (a b : τ) (op : CompareOp) (r : τ)
  | levenshtein (a b : τ) (op : CompareOp) (r : τ)
  | soundex (a : τ) (op : CompareOp) (r : τ)
  | metaphone (a : τ) (maxlen : Int) (op : CompareOp) (r : τ)
  | jaroWinkler (a b : τ) (op : CompareOp) (r : τ)
  | diceSimilarity (a b : τ) (op : CompareOp) (r : τ)
  deriving DecidableEq, Repr

/-- Temporal filters; timestamps, durations and IRIs are texts. -/
inductive TemporalFilter where
  | after (ts : String)
  | before (ts : String)
  | during (fromTs toTs : String)
  | within (duration : String)
  | sequence (s1 p1 o1 s2 p2 o2 window : String)
  | consecutive (n : Int) (pred window : String)
  | allenBefore (aStart aEnd bStart bEnd : String)
  | allenMeets (aStart aEnd bStart bEnd : String)
  | allenOverlaps (aStart aEnd bStart bEnd : String)
  | allenDuring (aStart aEnd bStart bEnd : String)
  | allenFinishes (aStart aEnd bStart bEnd : String)
  | allenStarts (aStart aEnd bStart bEnd : String)
  | allenEquals (aStart aEnd bStart bEnd : String)
  deriving DecidableEq, Repr

inductive AggFunc where
  | count | sum | min | max | avg
  deriving DecidableEq, Repr

/-- `COUNT(?aggVar WHERE atom) = ?resultVar`. -/
structure AggregateLiteral where
  func : AggFunc
  aggVar : String
  atom : Atom
  resultVar : String
  deriving DecidableEq, Repr

/-- A body literal. -/
inductive BodyLiteral where
  | positive (a : Atom)
  | negated (a : Atom)
  | compare (l : Term) (op : CompareOp) (r : Term)
  | stringBuiltin (b : StringBuiltin Term)
  | assign (v : String) (l : Term) (op : ArithOp) (r : Term)
  | aggregate (a : AggregateLiteral)
  | temporalFilter (f : TemporalFilter)
  deriving DecidableEq, Repr

/-- `head :- body .`; a constraint rule has no head. -/
structure Rule where
  head : Option Atom
  body : List BodyLiteral
  ruleText : String
  deriving DecidableEq, Repr

namespace StringBuiltin

variable {τ σ : Type}

/-- The arguments that a built-in reads. -/
def args : StringBuiltin τ → List τ
  | .strlen a _ r => [a, r]
  | .regex a _ => [a]
  | .trigramSimilarity a b _ r => [a, b, r]
  | .levenshtein a b _ r => [a, b, r]
  | .soundex a _ r => [a, r]
  | .metaphone a _ _ r => [a, r]
  | .jaroWinkler a b _ r => [a, b, r]
  | .diceSimilarity a b _ r => [a, b, r]

def map (f : τ → σ) : StringBuiltin τ → StringBuiltin σ
  | .strlen a op r => .strlen (f a) op (f r)
  | .regex a pattern => .regex (f a) pattern
  | .trigramSimilarity a b op r => .trigramSimilarity (f a) (f b) op (f r)
  | .levenshtein a b op r => .levenshtein (f a) (f b) op (f r)
  | .soundex a op r => .soundex (f a) op (f r)
  | .metaphone a maxlen op r => .metaphone (f a) maxlen op (f r)
  | .jaroWinkler a b op r => .jaroWinkler (f a) (f b) op (f r)
  | .diceSimilarity a b op r => .diceSimilarity (f a) (f b) op (f r)

/-- Evaluate the arguments; `none` as soon as one of them is `NULL`. -/
def traverse (f : τ → Option σ) : StringBuiltin τ → Option (StringBuiltin σ)
  | .strlen a op r => do return .strlen (← f a) op (← f r)
  | .regex a pattern => do return .regex (← f a) pattern
  | .trigramSimilarity a b op r => do return .trigramSimilarity (← f a) (← f b) op (← f r)
  | .levenshtein a b op r => do return .levenshtein (← f a) (← f b) op (← f r)
  | .soundex a op r => do return .soundex (← f a) op (← f r)
  | .metaphone a maxlen op r => do return .metaphone (← f a) maxlen op (← f r)
  | .jaroWinkler a b op r => do return .jaroWinkler (← f a) (← f b) op (← f r)
  | .diceSimilarity a b op r => do return .diceSimilarity (← f a) (← f b) op (← f r)

end StringBuiltin

/-- `compare_op_sql`, applied. -/
def CompareOp.test : CompareOp → Int → Int → Bool
  | .gt, x, y => y < x
  | .gte, x, y => y ≤ x
  | .lt, x, y => x < y
  | .lte, x, y => x ≤ y
  | .eq, x, y => x = y
  | .neq, x, y => x ≠ y

/-- `arith_op_sql`, applied; a divisor is wrapped in `NULLIF(…, 0)`. -/
def ArithOp.apply : ArithOp → Int → Int → Option Int
  | .add, x, y => some (x + y)
  | .sub, x, y => some (x - y)
  | .mul, x, y => some (x * y)
  | .div, x, y => if y = 0 then none else some (x.tdiv y)

/-- The same on `bigint`, where a result out of range is an error. -/
def ArithOp.applyBigint (op : ArithOp) (x y : Int) : Option Int :=
  (op.apply x y).filter fun z => -2 ^ 63 ≤ z ∧ z < 2 ^ 63

theorem ArithOp.apply_of_applyBigint {op : ArithOp} {x y z : Int}
    (h : op.applyBigint x y = some z) : op.apply x y = some z :=
  (Option.filter_eq_some_iff.mp h).1

/-- The filters that compile to a subquery of their own. -/
def TemporalFilter.isSequential : TemporalFilter → Bool
  | .within .. | .sequence .. | .consecutive .. => true
  | _ => false

/-- `atom_pred`. -/
def Atom.pred? (a : Atom) : Option TermId :=
  match a.p with
  | .const id => some id
  | _ => none

/-- The positive atoms of a body, in order. -/
def positives (body : List BodyLiteral) : List Atom :=
  body.filterMap fun
    | .positive a => some a
    | _ => none

@[simp] theorem positives_append (b b' : List BodyLiteral) :
    positives (b ++ b') = positives b ++ positives b' := List.filterMap_append

namespace Rule

/-- `head_pred`: the predicate of the head, unless it is a variable or missing. -/
def headPred (r : Rule) : Option TermId := r.head.bind Atom.pred?

/-- The positive body atoms, in body order. -/
def positiveAtoms (r : Rule) : List Atom := positives r.body

/-- `is_recursive_rule`. -/
def isRecursive (r : Rule) (headPred : TermId) : Bool :=
  r.positiveAtoms.any fun a => a.p = .const headPred

@[simp] theorem mem_positiveAtoms {r : Rule} {a : Atom} :
    a ∈ r.positiveAtoms ↔ .positive a ∈ r.body := by
  simp only [positiveAtoms, positives, List.mem_filterMap]
  constructor
  · intro ⟨l, hl, same⟩
    cases l with
    | positive b =>
      cases same
      exact hl
    | _ => cases same
  · intro h
    exact ⟨_, h, rfl⟩

end Rule

/-- The distinct head predicates of a rule set. -/
def derivedPredIds (rules : List Rule) : List TermId := (rules.filterMap Rule.headPred).dedup

@[simp] theorem mem_derivedPredIds {rules : List Rule} {p : TermId} :
    p ∈ derivedPredIds rules ↔ ∃ r ∈ rules, r.headPred = some p := by
  simp [derivedPredIds]

end PgRipple.Datalog
