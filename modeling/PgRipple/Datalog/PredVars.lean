import PgRipple.Datalog.Model
import PgRipple.Datalog.Seminaive

/-!
# Predicate variables

`substitute_pred_var` replaces a variable of a rule by an id. Under a valuation, the changed rule
means what the rule means under the valuation with that id for the variable.

The ids are looked for in the subject and object positions of the atoms whose predicate is known.
If an atom has predicate variables as its subject and as its object, its rows give values to these
two and to no other variable.
-/

namespace PgRipple.Datalog

open Storage

/-- `sub`, on a term. -/
def Term.substitute (v : String) (x : TermId) : Term → Term
  | .var w => if w = v then .const x else .var w
  | t => t

/-- `sub_atom`. -/
def Atom.substitute (v : String) (x : TermId) (a : Atom) : Atom where
  s := a.s.substitute v x
  p := a.p.substitute v x
  o := a.o.substitute v x
  g := a.g.substitute v x

/-- What `substitute_pred_var` does to a literal: only atoms are touched. -/
def BodyLiteral.substitute (v : String) (x : TermId) : BodyLiteral → BodyLiteral
  | .positive a => .positive (a.substitute v x)
  | .negated a => .negated (a.substitute v x)
  | l => l

/-- `substitute_pred_var`. -/
def substitutePredVar (rule : Rule) (v : String) (x : TermId) : Rule where
  head := rule.head.map (Atom.substitute v x)
  body := rule.body.map (BodyLiteral.substitute v x)
  ruleText := s!"/* {v}={x} */ " ++ rule.ruleText

/-- Values for predicate variables, in the order in which they are substituted. -/
abbrev PredBinding := List (String × TermId)

/-- The rule that is compiled for a binding. -/
def specialise (rule : Rule) (binding : PredBinding) : Rule :=
  binding.foldl (fun rule (v, x) => substitutePredVar rule v x) rule

/-- The valuation that takes the values of the binding; the first value of a variable counts. -/
def PredBinding.valuation (ρ : Valuation) : PredBinding → Valuation
  | [] => ρ
  | (v, x) :: binding => Function.update (valuation ρ binding) v x

/-- The binding takes its values from the valuation. -/
def PredBinding.Agrees (binding : PredBinding) (ρ : Valuation) : Prop :=
  ∀ v x, (v, x) ∈ binding → ρ v = x

section Substitute

variable {v : String} {x y : TermId} {ρ : Valuation} {scope : GraphScope} {a : Atom} {q : Quad}

/-- A term after substitution stands for what it stood for, under the changed valuation. -/
theorem value_substitute (t : Term) : (t.substitute v x).value ρ = t.value
    (Function.update ρ v x) := by
  cases t with
  | var w =>
    by_cases same : w = v
    · simp [Term.substitute, Term.value, same]
    · simp [Term.substitute, Term.value, same]
  | _ => rfl

theorem accepts_substitute (t : Term) :
    (t.substitute v x).Accepts ρ y ↔ t.Accepts (Function.update ρ v x) y := by
  cases t with
  | var w =>
    by_cases same : w = v
    · simp [Term.substitute, Term.Accepts, same]
    · simp [Term.substitute, Term.Accepts, same]
  | _ => exact Iff.rfl

theorem acceptsGraph_substitute (t : Term) :
    (t.substitute v x).AcceptsGraph scope ρ y ↔ t.AcceptsGraph scope (Function.update ρ v x) y := by
  cases t with
  | var w =>
    by_cases same : w = v
    · simp [Term.substitute, Term.AcceptsGraph, same]
    · simp [Term.substitute, Term.AcceptsGraph, same]
  | _ => exact Iff.rfl

theorem matches_substitute :
    (a.substitute v x).Matches scope ρ q ↔ a.Matches scope (Function.update ρ v x) q := by
  constructor
  · intro h
    exact ⟨(accepts_substitute _).mp h.s, (accepts_substitute _).mp h.p,
      (accepts_substitute _).mp h.o,
      (acceptsGraph_substitute _).mp h.g⟩
  · intro h
    exact ⟨(accepts_substitute _).mpr h.s, (accepts_substitute _).mpr h.p,
      (accepts_substitute _).mpr h.o, (acceptsGraph_substitute _).mpr h.g⟩

theorem concludes_substitute :
    (a.substitute v x).Concludes ρ q ↔ a.Concludes (Function.update ρ v x) q := by
  constructor
  · intro h
    exact ⟨(value_substitute _).symm.trans h.s, (value_substitute _).symm.trans h.p,
      (value_substitute _).symm.trans h.o, by rw [← value_substitute]; exact h.g⟩
  · intro h
    exact ⟨(value_substitute _).trans h.s, (value_substitute _).trans h.p,
      (value_substitute _).trans h.o, by rw [Atom.substitute, value_substitute]; exact h.g⟩

end Substitute

section Specialise

variable {rule : Rule} {binding : PredBinding} {ρ : Valuation} {scope : GraphScope} {q : Quad}

/-- What a binding does to an atom. -/
def Atom.specialise (binding : PredBinding) (a : Atom) : Atom :=
  binding.foldl (fun a (v, x) => a.substitute v x) a

theorem matches_specialise {a : Atom} :
    (a.specialise binding).Matches scope ρ q ↔ a.Matches scope (binding.valuation ρ) q := by
  induction binding generalizing a with
  | nil => exact Iff.rfl
  | cons first binding ih => exact (@ih (a.substitute first.1 first.2)).trans matches_substitute

theorem concludes_specialise {a : Atom} :
    (a.specialise binding).Concludes ρ q ↔ a.Concludes (binding.valuation ρ) q := by
  induction binding generalizing a with
  | nil => exact Iff.rfl
  | cons first binding ih => exact (@ih (a.substitute first.1 first.2)).trans concludes_substitute

theorem head_specialise :
    (specialise rule binding).head = rule.head.map (Atom.specialise binding) := by
  induction binding generalizing rule with
  | nil =>
    show rule.head = rule.head.map id
    simp
  | cons first binding ih =>
    have rest := @ih (substitutePredVar rule first.1 first.2)
    show (specialise (substitutePredVar rule first.1 first.2) binding).head = _
    rw [rest, substitutePredVar, Option.map_map]
    rfl

theorem positiveAtoms_substitutePredVar (v : String) (x : TermId) :
    (substitutePredVar rule v x).positiveAtoms = rule.positiveAtoms.map (Atom.substitute v x) := by
  simp only [Rule.positiveAtoms, positives, substitutePredVar, List.filterMap_map,
    List.map_filterMap]
  refine List.filterMap_congr ?_
  intro l _
  cases l <;> rfl

theorem positiveAtoms_specialise :
    (specialise rule binding).positiveAtoms = rule.positiveAtoms.map (Atom.specialise binding) := by
  induction binding generalizing rule with
  | nil =>
    show rule.positiveAtoms = rule.positiveAtoms.map id
    simp
  | cons first binding ih =>
    have rest := @ih (substitutePredVar rule first.1 first.2)
    show (specialise (substitutePredVar rule first.1 first.2) binding).positiveAtoms = _
    rw [rest, positiveAtoms_substitutePredVar, List.map_map]
    rfl

/-- Every body literal is a positive atom. -/
def Rule.AllPositive (rule : Rule) : Prop := ∀ l ∈ rule.body, ∃ a, l = .positive a

theorem allPositive_substitutePredVar {v : String} {x : TermId} :
    (substitutePredVar rule v x).AllPositive ↔ rule.AllPositive := by
  have literal (l : BodyLiteral) :
      (∃ a, l.substitute v x = .positive a) ↔ ∃ a, l = .positive a := by
    cases l <;> simp [BodyLiteral.substitute]
  simp only [Rule.AllPositive, substitutePredVar, List.forall_mem_map, literal]

theorem allPositive_specialise : (specialise rule binding).AllPositive ↔ rule.AllPositive := by
  induction binding generalizing rule with
  | nil => exact Iff.rfl
  | cons first binding ih =>
    exact (@ih (substitutePredVar rule first.1 first.2)).trans allPositive_substitutePredVar

theorem Rule.AllPositive.not_temporal (positive : rule.AllPositive) (I : Interpretation)
    (a : Atom) :
    ¬ I.Temporal rule a := by
  intro ⟨filters, _⟩
  refine absurd (List.filterMap_eq_nil_iff.mpr ?_) filters
  intro l hl
  obtain ⟨a, rfl⟩ := positive l hl
  rfl

/-- Instances of a rule of positive atoms are judged without looking at what is stored. -/
theorem Rule.AllPositive.instance_iff (positive : rule.AllPositive) {I : Interpretation}
    {N : Set Quad} {chosen : List Quad} :
    I.Instance rule N ρ chosen q ↔ (∃ h, rule.head = some h ∧ h.Concludes ρ q) ∧
      List.Forall₂ (fun a b => a.Matches I.scope ρ b) rule.positiveAtoms chosen := by
  constructor
  · intro inst
    exact ⟨inst.head, inst.atoms.imp fun _ _ h => h.1⟩
  · intro ⟨head, atoms⟩
    refine ⟨head, atoms.imp ?_, ?_⟩
    · intro a b isMatch
      exact ⟨isMatch, fun temporal => absurd temporal (positive.not_temporal I a)⟩
    · intro l hl
      obtain ⟨a, rfl⟩ := positive l hl
      trivial

/-- The instances of a specialised rule are those of the rule that take the values of the
binding. -/
theorem instance_specialise_iff (positive : rule.AllPositive) {I : Interpretation} {N N' : Set Quad}
    {chosen : List Quad} :
    I.Instance (specialise rule binding) N ρ chosen q ↔
      I.Instance rule N' (binding.valuation ρ) chosen q := by
  have heads : (∃ h, (specialise rule binding).head = some h ∧ h.Concludes ρ q) ↔
      ∃ h, rule.head = some h ∧ h.Concludes (binding.valuation ρ) q := by
    rw [head_specialise]
    cases rule.head with
    | none => simp
    | some head => simp [concludes_specialise]
  rw [(allPositive_specialise.mpr positive).instance_iff, positive.instance_iff, heads,
    positiveAtoms_specialise, List.forall₂_map_left_iff]
  simp only [matches_specialise]

theorem PredBinding.Agrees.valuation_eq (agrees : binding.Agrees ρ) : binding.valuation ρ = ρ := by
  induction binding with
  | nil => rfl
  | cons first binding ih =>
    have rest : PredBinding.valuation ρ binding = ρ :=
      ih fun v x mem => agrees v x (List.mem_cons_of_mem first mem)
    show Function.update (PredBinding.valuation ρ binding) first.1 first.2 = ρ
    rw [rest, ← agrees first.1 first.2 List.mem_cons_self, Function.update_eq_self]

/-- A variable of the binding has one of its values. -/
theorem PredBinding.mem_over {v : String} (bound : v ∈ binding.map Prod.fst) :
    (v, binding.valuation ρ v) ∈ binding := by
  induction binding with
  | nil => cases bound
  | cons first binding ih =>
    by_cases same : v = first.1
    · have value : PredBinding.valuation ρ (first :: binding) v = first.2 := by
        rw [same]
        exact Function.update_self ..
      rw [value, same]
      exact List.mem_cons_self
    · have value : PredBinding.valuation ρ (first :: binding) v =
          PredBinding.valuation ρ binding v :=
        Function.update_of_ne same ..
      rw [value]
      refine List.mem_cons_of_mem first (ih ?_)
      exact (List.mem_cons.mp bound).resolve_left same

theorem PredBinding.valuation_of_not_mem {v : String} (free : v ∉ binding.map Prod.fst) :
    binding.valuation ρ v = ρ v := by
  induction binding with
  | nil => rfl
  | cons first binding ih =>
    rw [List.map_cons, List.mem_cons, not_or] at free
    have value : PredBinding.valuation ρ (first :: binding) v = PredBinding.valuation ρ binding v :=
      Function.update_of_ne free.1 ..
    rw [value, ih free.2]

/-- What a binding does to a term. -/
def Term.specialise (binding : PredBinding) (t : Term) : Term :=
  binding.foldl (fun t (v, x) => t.substitute v x) t

theorem Atom.specialise_eq {a : Atom} : a.specialise binding =
    ⟨a.s.specialise binding, a.p.specialise binding, a.o.specialise binding,
      a.g.specialise binding⟩ := by
  induction binding generalizing a with
  | nil => rfl
  | cons first binding ih => exact @ih (a.substitute first.1 first.2)

/-- A variable that the binding does not name stays. -/
theorem Term.specialise_var {v : String} (free : v ∉ binding.map Prod.fst) :
    (Term.var v).specialise binding = .var v := by
  induction binding with
  | nil => rfl
  | cons first binding ih =>
    rw [List.map_cons, List.mem_cons, not_or] at free
    have first_ : (Term.var v).substitute first.1 first.2 = .var v := if_neg free.1
    show ((Term.var v).substitute first.1 first.2).specialise binding = .var v
    rw [first_, ih free.2]

end Specialise

/-- The variable in a position. -/
def Term.var? : Term → Option String
  | .var v => some v
  | _ => none

/-- The atoms of a body literal that `collect_pred_vars` looks at. -/
def BodyLiteral.writtenAtom? : BodyLiteral → Option Atom
  | .positive a => some a
  | .negated a => some a
  | _ => none

/-- `collect_pred_vars`: the predicate variables, that of the head first. -/
def collectPredVars (rule : Rule) : List String :=
  ((rule.head.toList ++ rule.body.filterMap BodyLiteral.writtenAtom?).filterMap fun a =>
    a.p.var?).eraseDups

/-- The order in which PostgreSQL and hash sets return what is collected: any order. -/
structure RowOrder where
  values : String → List TermId → List TermId
  pairs : List (TermId × TermId) → List (TermId × TermId)
  perm_values : ∀ v xs, (values v xs).Perm xs
  perm_pairs : ∀ xs, (pairs xs).Perm xs

/-- `enumerate_pred_var_values` for one atom: a variable in both positions is read as the
subject. -/
def atomValues (st : Store) (v : String) (a : Atom) : List TermId :=
  match a.pred? with
  | none => []
  | some p =>
    if a.s = .var v then
      match a.o with
      | .const o => ((vpReadExpr st p).filter fun k => k.o = o).map Key.s
      | _ => (vpReadExpr st p).map Key.s
    else if a.o = .var v then
      match a.s with
      | .const s => ((vpReadExpr st p).filter fun k => k.s = s).map Key.o
      | _ => (vpReadExpr st p).map Key.o
    else []

/-- `enumerate_pred_var_values`. -/
def enumeratePredVarValues (order : RowOrder) (st : Store) (rule : Rule) (v : String) :
    List TermId :=
  order.values v (rule.positiveAtoms.flatMap (atomValues st v)).dedup

/-- The predicate variable in a position. -/
def Term.predVar? (vars : List String) : Term → Option String
  | .var v => if v ∈ vars then some v else none
  | _ => none

/-- The first atom with a known predicate whose subject and object are predicate variables. -/
def enumeratingAtom (rule : Rule) : Option (TermId × String × String) :=
  rule.positiveAtoms.findSome? fun a =>
    match a.pred?, a.s.predVar? (collectPredVars rule), a.o.predVar? (collectPredVars rule) with
    | some p, some s, some o => some (p, s, o)
    | _, _, _ => none

/-- All choices of a value for each variable. -/
def choices (perVar : List (String × List TermId)) : List PredBinding :=
  perVar.foldl (fun result (v, values) =>
    result.flatMap fun chosen => values.map fun x => chosen ++ [(v, x)]) [[]]

/-- `compute_pred_var_bindings`. -/
def computePredVarBindings (order : RowOrder) (st : Store) (rule : Rule) : List PredBinding :=
  match enumeratingAtom rule with
  | some (p, s, o) =>
    (order.pairs ((vpReadExpr st p).map fun k => (k.s, k.o)).dedup).map fun (x, y) =>
    [(s, x), (o, y)]
  | none =>
    let perVar := (collectPredVars rule).map fun v => (v, enumeratePredVarValues order st rule v)
    if perVar.any fun values => values.2.isEmpty then [] else choices perVar

end PgRipple.Datalog
