import PgRipple.Sparql.Filter
import PgRipple.Sparql.MergeCorrect

/-!
# Filters and effective boolean values

An expression evaluates to a term or to an error, and a row passes a filter if the
effective boolean value of its expression is true. What terms are, what their effective
boolean values are, and how they compare is left open here; the logic around them is that
of SPARQL.

The condition that is made of an expression may be wrong about true and right about false, or
the other way round, and a wrong part may do no harm beside another one. `Fits` goes through an
expression and says for each of the two values when the condition has it just if the expression
does.
-/

namespace PgRipple.Sparql

/-- Terms, as far as expressions tell them apart. -/
structure TermSemantics (τ : Type) where
  /-- The term that an id stands for. -/
  decode : TermId → τ
  iri : String → τ
  literal : Literal → τ
  bool : Bool → τ
  /-- The effective boolean value; `none` is a type error. -/
  ebv : τ → Kleene.Truth
  /-- The operators on two terms; `none` is a type error. -/
  compare : CompareOp → τ → τ → Kleene.Truth
  ebv_bool : ∀ b, ebv (bool b) = some b
  ebv_iri : ∀ x, ebv (iri x) = none

section Semantics

variable {τ : Type} [DecidableEq τ] (sem : TermSemantics τ) (μ : String → Option τ)

/-- The value of an expression; `none` is an error. -/
def eval : Expression → Option τ
  | .var v => μ v
  | .namedNode iri => some (sem.iri iri)
  | .literal lit => some (sem.literal lit)
  | .compare op a b => do
    let x ← eval a
    let y ← eval b
    (sem.compare op x y).map sem.bool
  | .sameTerm a b => do
    let x ← eval a
    let y ← eval b
    some (sem.bool (decide (x = y)))
  | .and a b => (Kleene.and ((eval a).bind sem.ebv) ((eval b).bind sem.ebv)).map sem.bool
  | .or a b => (Kleene.or ((eval a).bind sem.ebv) ((eval b).bind sem.ebv)).map sem.bool
  | .not a => (Kleene.not ((eval a).bind sem.ebv)).map sem.bool
  | .bound v => some (sem.bool (μ v).isSome)
  | .ite cond thenExpr elseExpr =>
    match (eval cond).bind sem.ebv with
    | some true => eval thenExpr
    | some false => eval elseExpr
    | none => none

/-- The effective boolean value of an expression. -/
def truth (e : Expression) : Kleene.Truth := (eval sem μ e).bind sem.ebv

variable {sem μ} {a b c t e : Expression} {v : String}

omit [DecidableEq τ] in
theorem bind_map_ebv (x : Kleene.Truth) : (x.map sem.bool).bind sem.ebv = x := by
  obtain _ | x := x
  · rfl
  · exact sem.ebv_bool x

@[simp] theorem truth_namedNode (iri : String) : truth sem μ (.namedNode iri) = none :=
  sem.ebv_iri iri

@[simp] theorem truth_bound : truth sem μ (.bound v) = some (μ v).isSome := sem.ebv_bool _

@[simp] theorem truth_not : truth sem μ (.not a) = Kleene.not (truth sem μ a) := bind_map_ebv _

@[simp] theorem truth_and :
    truth sem μ (.and a b) = Kleene.and (truth sem μ a) (truth sem μ b) := bind_map_ebv _

@[simp] theorem truth_or :
    truth sem μ (.or a b) = Kleene.or (truth sem μ a) (truth sem μ b) := bind_map_ebv _

end Semantics

section Dropped

variable {env : Env} {iriId : String → TermId} {bindings : List (String × ColExpr)}

theorem lookup_isNone (v : String) :
    (bindings.lookup v).isNone = decide (v ∉ bindings.map Prod.fst) := by
  have none := @Fragment.lookup_eq_none_iff ⟨[], [], bindings⟩ v
  rw [Bool.eq_iff_iff, Option.isNone_iff_eq_none, decide_eq_true_iff]
  exact none

attribute [local simp] isDropped isValueless translateExpr translateExprValue

theorem isNone_translateExprValue_ite {c t e : Expression} :
    (translateExprValue env iriId bindings (.ite c t e)).isNone =
      ((translateExprValue env iriId bindings t).isNone ||
        (translateExpr env iriId bindings c).isNone &&
          (translateExprValue env iriId bindings c).isNone) := by
  rw [translateExprValue]
  cases translateExprValue env iriId bindings t with
  | none => rfl
  | some thenSql =>
    cases c with
    | var v =>
      simp only [Option.bind_eq_bind, Option.bind_some, translateExpr, translateExprValue]
      cases bindings.lookup v <;> rfl
    | _ =>
      simp only [Option.bind_eq_bind, Option.bind_some]
      split <;> simp only [*, Option.isNone_some, Option.isNone_map, Bool.or_false, Bool.false_or,
        Bool.false_and, Bool.true_and, Option.isNone_none]

variable (env iriId bindings) in
theorem isNone_translate (e : Expression) :
    (translateExpr env iriId bindings e).isNone = isDropped (bindings.map Prod.fst) e ∧
      (translateExprValue env iriId bindings e).isNone =
        isValueless (bindings.map Prod.fst) e := by
  induction e with
  | var v =>
    rw [translateExpr, translateExprValue, Option.isNone_map, lookup_isNone]
    exact ⟨rfl, rfl⟩
  | bound v =>
    rw [translateExpr, Option.isNone_map, lookup_isNone]
    exact ⟨rfl, rfl⟩
  | namedNode iri => exact ⟨rfl, rfl⟩
  | literal lit => exact ⟨rfl, rfl⟩
  | compare op a b iha ihb =>
    refine ⟨?_, rfl⟩
    rw [isDropped, ← iha.2, ← ihb.2, translateExpr]
    cases translateExprValue env iriId bindings a <;>
      cases translateExprValue env iriId bindings b <;> rfl
  | sameTerm a b iha ihb =>
    refine ⟨?_, rfl⟩
    rw [isDropped, ← iha.2, ← ihb.2, translateExpr]
    cases translateExprValue env iriId bindings a <;>
      cases translateExprValue env iriId bindings b <;> rfl
  | and a b iha ihb =>
    refine ⟨?_, rfl⟩
    rw [isDropped, ← iha.1, ← ihb.1, translateExpr]
    cases translateExpr env iriId bindings a <;> cases translateExpr env iriId bindings b <;> rfl
  | or a b iha ihb =>
    refine ⟨?_, rfl⟩
    rw [isDropped, ← iha.1, ← ihb.1, translateExpr]
    cases translateExpr env iriId bindings a <;> cases translateExpr env iriId bindings b <;> rfl
  | not a iha =>
    refine ⟨?_, rfl⟩
    rw [isDropped, ← iha.1, translateExpr, Option.isNone_map]
  | ite c t e ihc iht ihe =>
    constructor
    · rw [isDropped, ← ihc.1, ← ihc.2, translateExpr]
      cases translateExprValue env iriId bindings c with
      | some condVal => rfl
      | none => simp
    · rw [isNone_translateExprValue_ite, isValueless, ihc.1, ihc.2, iht.2]

end Dropped

section Outcome

variable (env : Env) (iriId : String → TermId) (bindings : List (String × ColExpr)) (db : Db)
  (j : Joined)

/-- The value of the condition on a row; without a condition it is missing, too. -/
def outcome (e : Expression) : Kleene.Truth :=
  (translateExpr env iriId bindings e).bind fun cond => cond db j

/-- The value of the column on a row. -/
def operand (e : Expression) : Value :=
  (translateExprValue env iriId bindings e).bind fun col => col db j

/-- What a branch of `IF` becomes. -/
def branch (e : Expression) : Kleene.Truth :=
  if isDropped (bindings.map Prod.fst) e then some false else outcome env iriId bindings db j e

variable {env iriId bindings db j} {a b c t e : Expression}

theorem outcome_of_dropped (h : isDropped (bindings.map Prod.fst) e = true) :
    outcome env iriId bindings db j e = none := by
  rw [← (isNone_translate env iriId bindings e).1, Option.isNone_iff_eq_none] at h
  rw [outcome, h]
  rfl

variable (env iriId) in
theorem exists_translateExpr (h : isDropped (bindings.map Prod.fst) e = false) :
    ∃ cond, translateExpr env iriId bindings e = some cond := by
  rw [← (isNone_translate env iriId bindings e).1] at h
  exact Option.isSome_iff_exists.mp (by simpa using h)

variable (env iriId) in
theorem exists_translateExprValue (h : isValueless (bindings.map Prod.fst) e = false) :
    ∃ col, translateExprValue env iriId bindings e = some col := by
  rw [← (isNone_translate env iriId bindings e).2] at h
  exact Option.isSome_iff_exists.mp (by simpa using h)

theorem outcome_compare (op : CompareOp) :
    outcome env iriId bindings db j (.compare op a b) =
      op.onValues (operand env iriId bindings db j a) (operand env iriId bindings db j b) := by
  rw [outcome, operand, operand, translateExpr]
  cases translateExprValue env iriId bindings a with
  | none => rfl
  | some la =>
    cases translateExprValue env iriId bindings b with
    | none => cases here : la db j <;> simp [here, CompareOp.onValues]
    | some ra => rfl

theorem outcome_sameTerm :
    outcome env iriId bindings db j (.sameTerm a b) =
      CompareOp.equal.onValues (operand env iriId bindings db j a)
        (operand env iriId bindings db j b) := by
  rw [← outcome_compare, outcome, outcome, translateExpr, translateExpr]

theorem outcome_not :
    outcome env iriId bindings db j (.not a) = Kleene.not (outcome env iriId bindings db j a) := by
  rw [outcome, outcome, translateExpr]
  cases translateExpr env iriId bindings a <;> rfl

theorem outcome_and (ha : isDropped (bindings.map Prod.fst) a = false)
    (hb : isDropped (bindings.map Prod.fst) b = false) :
    outcome env iriId bindings db j (.and a b) =
      Kleene.and (outcome env iriId bindings db j a) (outcome env iriId bindings db j b) := by
  obtain ⟨la, hla⟩ := exists_translateExpr env iriId ha
  obtain ⟨ra, hra⟩ := exists_translateExpr env iriId hb
  rw [outcome, outcome, outcome, translateExpr, hla, hra]
  rfl

theorem outcome_or (ha : isDropped (bindings.map Prod.fst) a = false)
    (hb : isDropped (bindings.map Prod.fst) b = false) :
    outcome env iriId bindings db j (.or a b) =
      Kleene.or (outcome env iriId bindings db j a) (outcome env iriId bindings db j b) := by
  obtain ⟨la, hla⟩ := exists_translateExpr env iriId ha
  obtain ⟨ra, hra⟩ := exists_translateExpr env iriId hb
  rw [outcome, outcome, outcome, translateExpr, hla, hra]
  rfl

theorem getD_never : ((translateExpr env iriId bindings e).getD .never) db j =
    branch env iriId bindings db j e := by
  rw [branch, outcome, ← (isNone_translate env iriId bindings e).1]
  cases translateExpr env iriId bindings e <;> rfl

/-- The condition of `IF` is read as a column where it has one. -/
theorem outcome_ite_of_value (hc : isValueless (bindings.map Prod.fst) c = false) :
    outcome env iriId bindings db j (.ite c t e) =
      if isFalsy (operand env iriId bindings db j c) then branch env iriId bindings db j e
      else branch env iriId bindings db j t := by
  obtain ⟨col, hcol⟩ := exists_translateExprValue env iriId hc
  rw [outcome, translateExpr, hcol, operand, hcol]
  simp only [Option.bind_some, getD_never]

theorem outcome_ite_of_condition (hc : isValueless (bindings.map Prod.fst) c = true)
    (hc' : isDropped (bindings.map Prod.fst) c = false) :
    outcome env iriId bindings db j (.ite c t e) =
      if outcome env iriId bindings db j c = some true then branch env iriId bindings db j t
      else branch env iriId bindings db j e := by
  obtain ⟨cond, hcond⟩ := exists_translateExpr env iriId hc'
  rw [← (isNone_translate env iriId bindings c).2, Option.isNone_iff_eq_none] at hc
  rw [outcome, translateExpr, hc, hcond, outcome, hcond]
  simp only [Option.map_some, Option.bind_some, SqlBool.caseWhen, getD_never]

end Outcome

/-- Of two values that are needed, both are right, or a right one is missing, or both are wrong,
each in its way. -/
def BothFit (fitA fitB isA isB : Prop) : Prop :=
  fitA ∧ fitB ∨ fitA ∧ ¬ isA ∨ fitB ∧ ¬ isB ∨ ¬ fitA ∧ ¬ fitB ∧ (isA ↔ ¬ isB)

/-- Of two values one of which is enough, both are right, or a right one is there, or both are
wrong, each in its way. -/
def EitherFits (fitA fitB isA isB : Prop) : Prop :=
  fitA ∧ fitB ∨ fitA ∧ isA ∨ fitB ∧ isB ∨ ¬ fitA ∧ ¬ fitB ∧ (isA ↔ ¬ isB)

theorem bothFit_iff {fitA fitB isA isB hasA hasB : Prop} (a : fitA ↔ (hasA ↔ isA))
    (b : fitB ↔ (hasB ↔ isB)) :
    BothFit fitA fitB isA isB ↔ (hasA ∧ hasB ↔ isA ∧ isB) := by
  rw [BothFit, a, b]
  tauto

theorem eitherFits_iff {fitA fitB isA isB hasA hasB : Prop} (a : fitA ↔ (hasA ↔ isA))
    (b : fitB ↔ (hasB ↔ isB)) :
    EitherFits fitA fitB isA isB ↔ (hasA ∨ hasB ↔ isA ∨ isB) := by
  rw [EitherFits, a, b]
  tauto

section Fits

variable {τ : Type} [DecidableEq τ] (sem : TermSemantics τ) (env : Env)
  (iriId : String → TermId) (bindings : List (String × ColExpr)) (db : Db) (j : Joined)

/-- The terms that a row gives to the variables. -/
def termsOf (v : String) : Option τ :=
  ((bindings.lookup v).bind fun col => col db j).map sem.decode

/-- An expression has this value in a row. -/
def Is (e : Expression) (s : Bool) : Prop := truth sem (termsOf sem bindings db j) e = some s

/-- A branch of `IF`, which is `FALSE` if it is dropped, has the value that its expression has, or
the opposite one where it does not fit. -/
def BranchIs (e : Expression) (fits : Prop) (s : Bool) : Prop :=
  if isDropped (bindings.map Prod.fst) e then s = false else (fits ↔ Is sem bindings db j e s)

/-- The condition that is made of an expression has value `s` on a row just if the expression has,
node by node. What is dropped has no value. A bare variable is a test for being bound. A comparison
of ids is one of terms, and an error where that is one. An `IF` takes the branch by a column, if
its condition has one. -/
def Fits : Expression → Bool → Prop
  | .var v, true => ∀ x, termsOf sem bindings db j v = some x → sem.ebv x = some true
  | .var v, false => v ∈ bindings.map Prod.fst →
      ∃ x, termsOf sem bindings db j v = some x ∧ sem.ebv x ≠ some false
  | .namedNode _, _ => True
  | .literal lit, s => lit.condition env = s ↔ sem.ebv (sem.literal lit) = some s
  | .compare op a b, s =>
      op.onValues (operand env iriId bindings db j a) (operand env iriId bindings db j b) = some s ↔
        Is sem bindings db j (.compare op a b) s
  | .sameTerm a b, s =>
      CompareOp.equal.onValues (operand env iriId bindings db j a)
          (operand env iriId bindings db j b) = some s ↔
        Is sem bindings db j (.sameTerm a b) s
  | .bound v, s => v ∈ bindings.map Prod.fst ∨ s = true
  | .not a, s => Fits a (!s)
  | .and a b, s =>
      if isDropped (bindings.map Prod.fst) (.and a b) then ¬ Is sem bindings db j (.and a b) s
      else if s then
        BothFit (Fits a true) (Fits b true) (Is sem bindings db j a true)
          (Is sem bindings db j b true)
      else
        EitherFits (Fits a false) (Fits b false) (Is sem bindings db j a false)
          (Is sem bindings db j b false)
  | .or a b, s =>
      if isDropped (bindings.map Prod.fst) (.or a b) then ¬ Is sem bindings db j (.or a b) s
      else if s then
        EitherFits (Fits a true) (Fits b true) (Is sem bindings db j a true)
          (Is sem bindings db j b true)
      else
        BothFit (Fits a false) (Fits b false) (Is sem bindings db j a false)
          (Is sem bindings db j b false)
  | .ite c t e, s =>
      if isDropped (bindings.map Prod.fst) (.ite c t e) then ¬ Is sem bindings db j (.ite c t e) s
      else
        let takesThen : Prop :=
          if isValueless (bindings.map Prod.fst) c then (Fits c true ↔ Is sem bindings db j c true)
          else ¬ isFalsy (operand env iriId bindings db j c)
        (takesThen ∧ BranchIs sem bindings db j t (Fits t s) s ∨
            ¬ takesThen ∧ BranchIs sem bindings db j e (Fits e s) s) ↔
          Is sem bindings db j (.ite c t e) s

variable {sem env iriId bindings db j} {a b c t e : Expression} {s : Bool}

theorem is_not : Is sem bindings db j (.not a) s ↔ Is sem bindings db j a (!s) := by
  rw [Is, truth_not, Kleene.not_eq_some, Is]

theorem is_and_true : Is sem bindings db j (.and a b) true ↔
    Is sem bindings db j a true ∧ Is sem bindings db j b true := by
  rw [Is, truth_and, Kleene.and_eq_true, Is, Is]

theorem is_and_false : Is sem bindings db j (.and a b) false ↔
    Is sem bindings db j a false ∨ Is sem bindings db j b false := by
  rw [Is, truth_and, Kleene.and_eq_false, Is, Is]

theorem is_or_true : Is sem bindings db j (.or a b) true ↔
    Is sem bindings db j a true ∨ Is sem bindings db j b true := by
  rw [Is, truth_or, Kleene.or_eq_true, Is, Is]

theorem is_or_false : Is sem bindings db j (.or a b) false ↔
    Is sem bindings db j a false ∧ Is sem bindings db j b false := by
  rw [Is, truth_or, Kleene.or_eq_false, Is, Is]

theorem fits_var_iff (v : String) :
    Fits sem env iriId bindings db j (.var v) s ↔
      (outcome env iriId bindings db j (.var v) = some s ↔ Is sem bindings db j (.var v) s) := by
  have names := @Fragment.lookup_eq_none_iff ⟨[], [], bindings⟩ v
  rw [Is, outcome, translateExpr, truth, eval]
  cases found : bindings.lookup v with
  | none =>
    have absent : v ∉ bindings.map Prod.fst := names.mp found
    have unbound : termsOf sem bindings db j v = none := by rw [termsOf, found]; rfl
    cases s <;> simp [Fits, unbound, absent]
  | some col =>
    have present : v ∈ bindings.map Prod.fst := by
      by_contra absent
      rw [names.mpr absent] at found
      cases found
    have term : termsOf sem bindings db j v = (col db j).map sem.decode := by
      rw [termsOf, found]; rfl
    cases bound : col db j with
    | none => cases s <;> simp [Fits, term, bound, present, SqlBool.isNotNull]
    | some id => cases s <;> simp [Fits, term, bound, present, SqlBool.isNotNull]

theorem fits_bound_iff (v : String) :
    Fits sem env iriId bindings db j (.bound v) s ↔
      (outcome env iriId bindings db j (.bound v) = some s ↔
        Is sem bindings db j (.bound v) s) := by
  have names := @Fragment.lookup_eq_none_iff ⟨[], [], bindings⟩ v
  rw [Fits, Is, outcome, translateExpr, truth_bound, termsOf]
  cases found : bindings.lookup v with
  | none =>
    have absent : v ∉ bindings.map Prod.fst := names.mp found
    cases s <;> simp [absent]
  | some col =>
    have present : v ∈ bindings.map Prod.fst := by
      by_contra absent
      rw [names.mpr absent] at found
      cases found
    simp [present, SqlBool.isNotNull]

theorem branchIs_iff
    (he : Fits sem env iriId bindings db j e s ↔
      (outcome env iriId bindings db j e = some s ↔ Is sem bindings db j e s)) :
    BranchIs sem bindings db j e (Fits sem env iriId bindings db j e s) s ↔
      branch env iriId bindings db j e = some s := by
  rw [BranchIs, branch, he]
  split
  · rw [Option.some_inj, eq_comm]
  · tauto

/-- A part that is dropped fits where it should have no value. -/
theorem fits_of_dropped {P : Prop} (dropped : isDropped (bindings.map Prod.fst) e = true) :
    ¬ P ↔ (outcome env iriId bindings db j e = some s ↔ P) := by
  rw [outcome_of_dropped dropped]
  simp

/-- An expression that fits has the condition that it should. -/
theorem fits_iff (e : Expression) (s : Bool) :
    Fits sem env iriId bindings db j e s ↔
      (outcome env iriId bindings db j e = some s ↔ Is sem bindings db j e s) := by
  induction e generalizing s with
  | var v => exact fits_var_iff v
  | namedNode iri => simp [Fits, Is, outcome, translateExpr]
  | literal lit =>
    have value : outcome env iriId bindings db j (.literal lit) = some (lit.condition env) := by
      rw [outcome, translateExpr]
      rfl
    rw [Fits, Is, value, Option.some_inj]
    exact Iff.rfl
  | compare op a b _ _ => rw [Fits, outcome_compare]
  | sameTerm a b _ _ => rw [Fits, outcome_sameTerm]
  | bound v => exact fits_bound_iff v
  | not a iha => rw [Fits, iha, outcome_not, Kleene.not_eq_some, is_not]
  | and a b iha ihb =>
    rw [Fits]
    split
    · rename_i dropped
      exact fits_of_dropped dropped
    · rename_i kept
      obtain ⟨ha, hb⟩ : isDropped (bindings.map Prod.fst) a = false ∧
          isDropped (bindings.map Prod.fst) b = false := by
        simpa [isDropped] using kept
      rw [outcome_and ha hb]
      cases s with
      | true => rw [if_pos rfl, bothFit_iff (iha true) (ihb true), Kleene.and_eq_true, is_and_true]
      | false =>
        rw [if_neg Bool.false_ne_true, eitherFits_iff (iha false) (ihb false), Kleene.and_eq_false,
          is_and_false]
  | or a b iha ihb =>
    rw [Fits]
    split
    · rename_i dropped
      exact fits_of_dropped dropped
    · rename_i kept
      obtain ⟨ha, hb⟩ : isDropped (bindings.map Prod.fst) a = false ∧
          isDropped (bindings.map Prod.fst) b = false := by
        simpa [isDropped] using kept
      rw [outcome_or ha hb]
      cases s with
      | true => rw [if_pos rfl, eitherFits_iff (iha true) (ihb true), Kleene.or_eq_true, is_or_true]
      | false =>
        rw [if_neg Bool.false_ne_true, bothFit_iff (iha false) (ihb false), Kleene.or_eq_false,
          is_or_false]
  | ite c t e ihc iht ihe =>
    rw [Fits]
    split
    · rename_i dropped
      exact fits_of_dropped dropped
    · rename_i kept
      dsimp only
      rw [branchIs_iff (iht s), branchIs_iff (ihe s)]
      cases valueless : isValueless (bindings.map Prod.fst) c with
      | false =>
        -- the condition is read as a column
        rw [outcome_ite_of_value valueless, if_neg Bool.false_ne_true]
        split <;> simp [*]
      | true =>
        have condition : isDropped (bindings.map Prod.fst) c = false := by
          simpa [isDropped, valueless] using kept
        have takes : (Fits sem env iriId bindings db j c true ↔ Is sem bindings db j c true) ↔
            outcome env iriId bindings db j c = some true := by
          rw [ihc true]
          tauto
        rw [outcome_ite_of_condition valueless condition, if_pos rfl, takes]
        split <;> simp [*]

end Fits

section Filters

variable {τ : Type} [DecidableEq τ]

/-- The filter is translated, and keeps the rows for which its expression is true. -/
def FiltersRight (strict : Bool) (sem : TermSemantics τ) (env : Env) (iriId : String → TermId)
    (frag : Fragment) (db : Db) (e : Expression) : Prop :=
  ∃ filtered, translateFilter strict env iriId e frag = some filtered ∧
    ∀ j ∈ frag.joined db, j ∈ filtered.joined db ↔
      truth sem (termsOf sem frag.bindings db j) e = some true

theorem filterCond_iff {env : Env} {iriId : String → TermId} {db : Db} {j : Joined}
    {e : Expression} {bindings : List (String × ColExpr)} :
    filterCond env iriId bindings e db j = true ↔
      outcome env iriId bindings db j e = some true := by
  rw [filterCond, outcome]
  cases translateExpr env iriId bindings e with
  | none => simp
  | some cond => simp

/-- A filter keeps the right rows just if no part of it is an error of the strict mode and the
expression fits on every row. -/
theorem filtersRight_iff_fits (strict : Bool) (sem : TermSemantics τ) (env : Env)
    (iriId : String → TermId) (frag : Fragment) (db : Db) (e : Expression) :
    FiltersRight strict sem env iriId frag db e ↔
      (strict = true → isUnsupported (frag.bindings.map Prod.fst) e = false) ∧
        ∀ j ∈ frag.joined db, Fits sem env iriId frag.bindings db j e true := by
  have rows : (∀ j ∈ frag.joined db,
        (j ∈ Fragment.joined { frag with
            conditions := frag.conditions ++ [filterCond env iriId frag.bindings e] } db ↔
          truth sem (termsOf sem frag.bindings db j) e = some true)) ↔
      ∀ j ∈ frag.joined db, Fits sem env iriId frag.bindings db j e true := by
    refine forall₂_congr fun j hj => ?_
    rw [joined_filterCond, List.mem_filter, and_iff_right hj, filterCond_iff, fits_iff]
    exact Iff.rfl
  rw [FiltersRight, translateFilter, ← rows]
  by_cases error : strict = true ∧ isUnsupported (frag.bindings.map Prod.fst) e = true
  · rw [if_pos error]
    simp [error.1, error.2]
  · have supported : strict = true → isUnsupported (frag.bindings.map Prod.fst) e = false := by
      intro on
      simpa [on] using error
    rw [if_neg error]
    simp only [Option.some_inj, exists_eq_left', and_iff_right supported]

end Filters

/-- Booleans, and one term for everything else. -/
def coarseTerms : TermSemantics (Option Bool) where
  decode _ := none
  iri _ := none
  literal _ := none
  bool := some
  ebv := id
  compare _ _ _ := none
  ebv_bool _ := rfl
  ebv_iri _ := rfl

/-- `VALUES ?x { <a> } FILTER(!BOUND(?y))` has a solution but no row. -/
theorem not_filtersRight :
    ¬ FiltersRight true coarseTerms oneIri (fun _ => 2)
      (translateValues oneIri 0 ["x"] [[some (.namedNode "a")]]).1 ⟨.initial, []⟩
      (.not (.bound "y")) := by
  rintro ⟨filtered, translated, right⟩
  rw [translateFilter, if_neg (by decide), Option.some_inj] at translated
  subst translated
  have kept := (right [(.counted 1, [(Col.named "x", some 1)])]
    (List.mem_singleton_self _)).mpr (by decide)
  rw [joined_filterCond, List.mem_filter] at kept
  exact absurd kept.2 (by decide)

end PgRipple.Sparql
