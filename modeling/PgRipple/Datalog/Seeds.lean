import PgRipple.Datalog.Accepted
import PgRipple.Datalog.AntiJoin

/-!
# Seeds with guards and assignments

What `compile_nonrecursive_rule` emits for a body of positive atoms, comparisons and
assignments. Neither the order of the joins nor the clause that a guard ends up in matters
in general: all conditions hold of the same joined rows. What does matter is

* the first table of the join, which has no `ON` clause: a variable that its atom repeats
  is not compared;
* a later atom without variable and constant, which leaves a `JOIN` without `ON`;
* a comparison on an assigned variable, which is compiled before the variable is bound
  and is `NULL`;
* an assignment to a variable that is bound already, which is ignored;
* an assignment whose expression has no value, which is `NULL`.

Outside of these the rows are the instances of the rule.
-/

namespace PgRipple.Datalog

open Storage Inference

/-- The body has positive atoms with constant predicates, comparisons and assignments only. -/
def Rule.Computes (r : Rule) : Prop :=
  ∀ l ∈ r.body, (∃ a, l = .positive a ∧ a.pred?.isSome) ∨ (∃ x op y, l = .compare x op y) ∨
    ∃ v x op y, l = .assign v x op y

/-- Which guards are moved to the atom that has just been bound. -/
abbrev Pushdown := VarMap → BodyLiteral → Bool

/-- Step 3 for one atom, with the guards that `push` selects. -/
def pushAtom (ctx : Context) (filters : List TemporalFilter) (push : Pushdown)
    (state : Plan × List BodyLiteral) (a : Atom) : Except String (Plan × List BodyLiteral) :=
  let (plan, guards) := state
  match a.p with
  | .const p =>
    let vm := plan.varMap.bindAtom plan.nextAlias a
    let (ready, waiting) := guards.partition (push vm)
    let pushed := ready.filterMap (compileGuardSql vm)
    .ok (plan.addAtom ctx (seedSource ctx filters p) a pushed, waiting)
  | .var _ => .error "variable predicate in rule body not supported"
  | _ => .error "invalid predicate term in rule body"

/-- The plan for an order of the positive atoms and a choice of the guards to push. -/
def pushedPlan (ctx : Context) (rule : Rule) (push : Pushdown) (atoms : List Atom) :
    Except String Plan :=
  (atoms.foldlM (pushAtom ctx (temporalFilters rule) push)
    (Plan.empty, rule.body.filter BodyLiteral.isGuard)).bind fun state =>
  (rule.body.foldlM (seedNegated ctx) state.1).bind (latePlan ctx rule state.2)

/-- The compiler pushes every guard as soon as its variables are bound. -/
theorem orderedPlan_eq (ctx : Context) (rule : Rule) (atoms : List Atom) :
    orderedPlan ctx rule atoms = pushedPlan ctx rule guardFullyBound atoms := rfl

/-- Compile a rule and execute the statement. -/
def pushedOutcome (ctx : Context) (rule : Rule) (head : Atom) (push : Pushdown)
    (atoms : List Atom) : Except String (Option (List Key)) :=
  ((pushedPlan ctx rule push atoms).bind fun plan => plan.finish head seedHeadOther).map
    fun q => q.exec ctx.toDatabase []

theorem outcome_eq_pushed (ctx : Context) (rule : Rule) (head : Atom) :
    outcome ctx [] rule head = pushedOutcome ctx rule head guardFullyBound
      (seedAtoms ctx rule) := by
  rw [outcome_eq]
  unfold orderedOutcome pushedOutcome
  rw [orderedPlan_eq]
  simp only [Query.execJoined_eq]

/-- The conditions of a plan. -/
def Plan.conds (plan : Plan) : List Cond := plan.from_.flatMap FromItem.on ++ plan.where_

/-- The plan of the atoms alone. -/
def joinPlan (ctx : Context) (atoms : List Atom) : Plan :=
  Plan.empty.addAtoms ctx (atoms.map storedItem)

theorem joinPlan_append (ctx : Context) (atoms : List Atom) (a : Atom) :
    joinPlan ctx (atoms ++ [a]) =
      (joinPlan ctx atoms).addAtom ctx (storedItem a).1 a [] := by
  simp [joinPlan, Plan.addAtoms, List.foldl_append, storedItem]

theorem mem_conds_addAtom {ctx : Context} {plan : Plan} {source : Source} {a : Atom}
    {pushed : List Cond} {c : Cond} :
    c ∈ (plan.addAtom ctx source a pushed).conds ↔
      c ∈ plan.conds ∨ c ∈ atomConds ctx plan.nextAlias a ∨ c ∈ pushed ∨
        (plan.nextAlias ≠ 0 ∧
          c ∈ buildJoinCond ctx (plan.varMap.bindAtom plan.nextAlias a) plan.nextAlias a) := by
  unfold Plan.conds
  simp only [Plan.addAtom]
  split
  · rename_i first
    simp only [first, List.flatMap_append, List.flatMap_cons, List.flatMap_nil, List.append_nil,
      List.mem_append, ne_eq, not_true, false_and, or_false]
    tauto
  · rename_i later
    simp only [later, List.flatMap_append, List.flatMap_cons, List.flatMap_nil, List.append_nil,
      List.mem_append, ne_eq, not_false_iff, true_and]
    tauto

section Guards

variable {vm vm' : VarMap} {x y : Term} {op : CompareOp}

theorem render_extends (more : ∀ v e, vm.colRef v = some e → vm'.colRef v = some e)
    (bound : vm.isBound x = true) : vm'.render x = vm.render x := by
  cases x with
  | var v =>
    obtain ⟨e, he⟩ := Option.isSome_iff_exists.mp bound
    simp [VarMap.render, he, more v e he]
  | _ => rfl

theorem isBound_extends (more : ∀ v e, vm.colRef v = some e → vm'.colRef v = some e)
    (bound : vm.isBound x = true) : vm'.isBound x = true := by
  cases x with
  | var v =>
    obtain ⟨e, he⟩ := Option.isSome_iff_exists.mp bound
    simp [VarMap.isBound, more v e he]
  | _ => rfl

/-- A guard whose variables are bound compiles to the same condition later on. -/
theorem compileGuardSql_extends (more : ∀ v e, vm.colRef v = some e → vm'.colRef v = some e)
    (bound : guardFullyBound vm (.compare x op y) = true) :
    compileGuardSql vm' (.compare x op y) = compileGuardSql vm (.compare x op y) ∧
      guardFullyBound vm' (.compare x op y) = true := by
  obtain ⟨hx, hy⟩ := Bool.and_eq_true_iff.mp bound
  refine ⟨?_, Bool.and_eq_true_iff.mpr ⟨isBound_extends more hx, isBound_extends more hy⟩⟩
  rw [compileGuardSql, render_extends more hx, render_extends more hy]
  rfl

end Guards

section Pushing

variable {ctx : Context} {guards waiting : List BodyLiteral} {atoms : List Atom} {plan : Plan}
  {push : Pushdown}

/-- A plan that joins the atoms and tests some of the guards. -/
structure Pushed (ctx : Context) (guards : List BodyLiteral) (atoms : List Atom) (plan : Plan)
    (waiting : List BodyLiteral) : Prop where
  sources : plan.from_.map FromItem.source = (joinPlan ctx atoms).from_.map FromItem.source
  varMap : plan.varMap = (joinPlan ctx atoms).varMap
  conds : ∃ pushed : List BodyLiteral, (∀ g, g ∈ guards ↔ g ∈ pushed ∨ g ∈ waiting) ∧
    (∀ g ∈ pushed, guardFullyBound plan.varMap g = true) ∧
    ∀ c, c ∈ plan.conds ↔
      c ∈ (joinPlan ctx atoms).conds ∨ ∃ g ∈ pushed, compileGuardSql plan.varMap g = some c
  on : (∀ a ∈ atoms.tail, a.Anchored ctx.settings.ruleGraphScope) →
    ∀ item ∈ plan.from_.tail, item.on ≠ []

theorem pushed_empty : Pushed ctx guards [] Plan.empty guards where
  sources := rfl
  varMap := rfl
  conds := ⟨[], by simp, by simp, by simp [joinPlan, Plan.addAtoms]⟩
  on := fun _ _ h => absurd h List.not_mem_nil

theorem Pushed.nextAlias_eq (h : Pushed ctx guards atoms plan waiting) :
    plan.nextAlias = (joinPlan ctx atoms).nextAlias := by
  have := congrArg List.length h.sources
  simpa [Plan.nextAlias] using this

theorem nextAlias_joinPlan : (joinPlan ctx atoms).nextAlias = atoms.length := by
  rw [joinPlan, nextAlias_addAtoms, List.length_map]
  exact Nat.zero_add _

/-- A guard moves from the waiting ones to the conditions. -/
theorem Pushed.addAtom (h : Pushed ctx guards atoms plan waiting)
    (compares : ∀ g ∈ guards, ∃ x op y, g = .compare x op y)
    (only : ∀ vm g, push vm g = true → guardFullyBound vm g = true) (a : Atom) :
    let vm := plan.varMap.bindAtom plan.nextAlias a
    Pushed ctx guards (atoms ++ [a])
      (plan.addAtom ctx (storedItem a).1 a
        ((waiting.filter (push vm)).filterMap (compileGuardSql vm)))
      (waiting.filter fun g => !push vm g) := by
  intro vm
  have number := h.nextAlias_eq
  have vars (conds : List Cond) : (plan.addAtom ctx (storedItem a).1 a conds).varMap = vm := by
    simp only [Plan.addAtom]
    split <;> rfl
  have more (v : String) (e : Expr) (he : plan.varMap.colRef v = some e) : vm.colRef v = some e :=
    VarMap.colRef_bindAtom_eq he
  obtain ⟨pushed, parts, bound, conds⟩ := h.conds
  -- what is pushed already means the same with the new columns
  have old (g : BodyLiteral) (hg : g ∈ pushed) :
      compileGuardSql vm g = compileGuardSql plan.varMap g ∧ guardFullyBound vm g = true := by
    obtain ⟨x, op, y, rfl⟩ := compares g ((parts g).mpr (.inl hg))
    exact compileGuardSql_extends more (bound _ hg)
  refine ⟨?_, ?_, ⟨pushed ++ waiting.filter (push vm), ?_, ?_, ?_⟩, ?_⟩
  · obtain ⟨on, items⟩ := from_addAtom ctx plan (storedItem a).1 a
      ((waiting.filter (push vm)).filterMap (compileGuardSql vm))
    obtain ⟨on', items'⟩ := from_addAtom ctx (joinPlan ctx atoms) (storedItem a).1 a []
    rw [joinPlan_append, items, items', List.map_append, List.map_append, h.sources]
    rfl
  · rw [vars, joinPlan_append, varMap_addAtom, ← h.varMap, ← number]
  · intro g
    rw [parts g, List.mem_append, List.mem_filter, List.mem_filter]
    cases push vm g <;> simp
  · intro g hg
    rw [vars]
    obtain hg | hg := List.mem_append.mp hg
    · exact (old g hg).2
    · exact only vm g (List.of_mem_filter hg)
  · intro c
    have known : (∃ g ∈ pushed, compileGuardSql vm g = some c) ↔
        ∃ g ∈ pushed, compileGuardSql plan.varMap g = some c := by
      constructor
      · rintro ⟨g, hg, hc⟩
        exact ⟨g, hg, (old g hg).1 ▸ hc⟩
      · rintro ⟨g, hg, hc⟩
        exact ⟨g, hg, (old g hg).1.symm ▸ hc⟩
    have new : (∃ g ∈ pushed ++ waiting.filter (push vm), compileGuardSql vm g = some c) ↔
        (∃ g ∈ pushed, compileGuardSql vm g = some c) ∨
          c ∈ (waiting.filter (push vm)).filterMap (compileGuardSql vm) := by
      simp only [List.mem_append, List.mem_filterMap, or_and_right, exists_or]
    rw [joinPlan_append, vars, new, mem_conds_addAtom, mem_conds_addAtom, ← h.varMap, ← number,
      conds c, known]
    simp only [List.not_mem_nil, false_or, or_assoc, or_comm, or_left_comm]
  · intro anchored item hitem
    have before (a' : Atom) (ha' : a' ∈ atoms.tail) :
        a'.Anchored ctx.settings.ruleGraphScope := by
      refine anchored a' ?_
      rw [List.tail_append]
      split
      · rename_i none
        rw [List.isEmpty_iff.mp none] at ha'
        exact absurd ha' List.not_mem_nil
      · exact List.mem_append.mpr (.inl ha')
    have length : plan.from_.length = atoms.length := number.trans nextAlias_joinPlan
    cases atoms with
    | nil =>
      -- the first item is not in the tail
      obtain ⟨on, items⟩ := from_addAtom ctx plan (storedItem a).1 a
        ((waiting.filter (push vm)).filterMap (compileGuardSql vm))
      rw [items, List.eq_nil_of_length_eq_zero length] at hitem
      exact absurd hitem List.not_mem_nil
    | cons first atoms =>
      have later : plan.nextAlias ≠ 0 := by
        rw [number, nextAlias_joinPlan]
        exact Nat.succ_ne_zero _
      have nonempty : plan.from_ ≠ [] := fun none => later (congrArg List.length none)
      simp only [Plan.addAtom, if_neg later, List.tail_append_of_ne_nil nonempty,
        List.mem_append, List.mem_singleton] at hitem
      obtain hitem | rfl := hitem
      · exact h.on before item hitem
      · have here : a.Anchored ctx.settings.ruleGraphScope := anchored a (by simp)
        have joins : buildJoinCond ctx vm plan.nextAlias a ≠ [] :=
          buildJoinCond_ne_nil here fun v hv => VarMap.colRef_bindAtom hv
        exact fun none => joins (List.append_eq_nil_iff.mp none).1

theorem exists_pushed (ctx : Context) (compares : ∀ g ∈ guards, ∃ x op y, g = .compare x op y)
    (only : ∀ vm g, push vm g = true → guardFullyBound vm g = true)
    (const : ∀ a ∈ atoms, a.pred?.isSome) :
    ∃ plan waiting, atoms.foldlM (pushAtom ctx [] push) (Plan.empty, guards) = .ok (plan, waiting) ∧
      Pushed ctx guards atoms plan waiting := by
  have step {a : Atom} (ha : a.pred?.isSome) (plan : Plan) (waiting : List BodyLiteral) :
      pushAtom ctx [] push (plan, waiting) a =
        .ok (plan.addAtom ctx (storedItem a).1 a ((waiting.filter
            (push (plan.varMap.bindAtom plan.nextAlias a))).filterMap
              (compileGuardSql (plan.varMap.bindAtom plan.nextAlias a))),
          waiting.filter fun g => !push (plan.varMap.bindAtom plan.nextAlias a) g) := by
    obtain ⟨p, hp⟩ := Option.isSome_iff_exists.mp ha
    simp [pushAtom, eq_const_of_pred hp, seedSource, storedItem, hp,
      List.partition_eq_filter_filter,
      Function.comp_def]
  obtain ⟨⟨plan, waiting⟩, folded⟩ := Fold.exists_foldlM (f := pushAtom ctx [] push)
    (Plan.empty, guards) fun a ha state => ⟨_, step (const a ha) state.1 state.2⟩
  refine ⟨plan, waiting, folded, ?_⟩
  refine Fold.foldlM_prefix (P := fun pre state => (∀ a ∈ pre, a.pred?.isSome) →
    Pushed ctx guards pre state.1 state.2) (fun _ => pushed_empty) ?_ folded const
  rintro pre a ⟨plan, waiting⟩ state before here const
  have previous := before fun b hb => const b (List.mem_append.mpr (.inl hb))
  rw [step (const a (by simp)) plan waiting] at here
  cases here
  exact previous.addAtom compares only a

end Pushing

/-- All variables of the term are bound. -/
def Term.Known (bound : String → Prop) (t : Term) : Prop := ∀ v, t = .var v → bound v

/-- Every assignment is to a new variable, from variables bound before it. -/
def AssignsInOrder : (bound : String → Prop) → List BodyLiteral → Prop
  | _, [] => True
  | bound, .assign v x _ y :: body =>
    ¬ bound v ∧ x.Known bound ∧ y.Known bound ∧ AssignsInOrder (fun w => bound w ∨ w = v) body
  | bound, _ :: body => AssignsInOrder bound body

/-- Carry out an assignment; `none` if the expression has no value. -/
def runAssign (ρ : Valuation) : BodyLiteral → Option Valuation
  | .assign v x op y => do
    let z ← op.applyBigint (← x.value ρ) (← y.value ρ)
    return Function.update ρ v z
  | _ => some ρ

/-- The assignment is true. -/
def Assigned (ρ : Valuation) (v : String) (x : Term) (op : ArithOp) (y : Term) : Prop :=
  ∃ a b, x.value ρ = some a ∧ y.value ρ = some b ∧ op.apply a b = some (ρ v)

section Assigns

variable {bound : String → Prop} {vm : VarMap} {env : List Key} {ρ ρ' : Valuation}
  {body : List BodyLiteral} {v : String} {x y : Term} {op : ArithOp}

theorem value_congr (known : x.Known bound) (agree : ∀ v, bound v → ρ' v = ρ v) :
    x.value ρ' = x.value ρ := by
  cases x with
  | var v => exact congrArg some (agree v (known v rfl))
  | _ => rfl

theorem eval_render (sound : vm.Sound env ρ) (known : x.Known fun v => (vm.colRef v).isSome) :
    (vm.render x).eval env = x.value ρ := by
  cases x with
  | var v =>
    obtain ⟨e, he⟩ := Option.isSome_iff_exists.mp (known v rfl)
    simp only [VarMap.render, he, Option.getD_some, Term.value]
    exact sound v e he
  | _ => rfl

/-- Literals other than assignments are passed over. -/
theorem skips {l : BodyLiteral} (no : ∀ v x op y, l ≠ .assign v x op y) :
    (∀ vm, bindAssign vm l = vm) ∧ (∀ ρ, runAssign ρ l = some ρ) ∧
      ∀ bound body, AssignsInOrder bound (l :: body) ↔ AssignsInOrder bound body := by
  cases l with
  | assign v x op y => exact absurd rfl (no v x op y)
  | _ => exact ⟨fun _ => rfl, fun _ => rfl, fun _ _ => Iff.rfl⟩

theorem mem_cons_assign {l : BodyLiteral} (no : ∀ v x op y, l ≠ .assign v x op y) :
    .assign v x op y ∈ l :: body ↔ .assign v x op y ∈ body := by
  rw [List.mem_cons]
  exact ⟨fun h => h.resolve_left fun same => no v x op y same.symm, .inr⟩

theorem colRef_foldl_bindAssign :
    ((body.foldl bindAssign vm).colRef v).isSome ↔
      (vm.colRef v).isSome ∨ ∃ x op y, .assign v x op y ∈ body := by
  induction body generalizing vm with
  | nil => simp
  | cons l body ih =>
    rw [List.foldl_cons, ih]
    by_cases isAssign : ∃ w x op y, l = .assign w x op y
    · obtain ⟨w, x, op, y, rfl⟩ := isAssign
      simp only [bindAssign, VarMap.colRef_bind]
      by_cases same : v = w
      · subst same
        have here : ∃ x' op' y', .assign v x' op' y' ∈ .assign v x op y :: body :=
          ⟨x, op, y, List.mem_cons_self⟩
        refine iff_of_true (.inl ?_) (.inr here)
        cases vm.colRef v <;> simp
      · simp [same]
    · push Not at isAssign
      simp only [(skips isAssign).1, mem_cons_assign isAssign]

/-- The operands of an assignment are bound before it, by an atom or an assignment. -/
theorem known_of_assignsInOrder (order : AssignsInOrder bound body)
    (h : .assign v x op y ∈ body) :
    (x.Known fun w => bound w ∨ ∃ x op y, .assign w x op y ∈ body) ∧
      y.Known fun w => bound w ∨ ∃ x op y, .assign w x op y ∈ body := by
  induction body generalizing bound with
  | nil => cases h
  | cons l body ih =>
    by_cases isAssign : ∃ w x op y, l = .assign w x op y
    · obtain ⟨w, x', op', y', rfl⟩ := isAssign
      obtain ⟨_, knownX, knownY, rest⟩ := order
      obtain same | h := List.mem_cons.mp h
      · cases same
        exact ⟨fun w hw => .inl (knownX w hw), fun w hw => .inl (knownY w hw)⟩
      · have known := ih rest h
        have widen {t : Term}
            (known : t.Known fun u => (bound u ∨ u = w) ∨ ∃ x op y, .assign u x op y ∈ body) :
            t.Known fun u => bound u ∨ ∃ x op y,
              .assign u x op y ∈ .assign w x' op' y' :: body := by
          intro u hu
          obtain (old | rfl) | ⟨x, op, y, hl⟩ := known u hu
          · exact .inl old
          · exact .inr ⟨x', op', y', List.mem_cons_self⟩
          · exact .inr ⟨x, op, y, List.mem_cons_of_mem _ hl⟩
        exact ⟨widen known.1, widen known.2⟩
    · push Not at isAssign
      rw [mem_cons_assign isAssign] at h
      simp only [mem_cons_assign isAssign]
      exact ih (((skips isAssign).2.2 _ _).mp order) h

/-- Assignments that are carried out are true, and their columns have these values. -/
theorem sound_assigns (names : ∀ v, (vm.colRef v).isSome ↔ bound v) (sound : vm.Sound env ρ)
    (order : AssignsInOrder bound body) (run : body.foldlM runAssign ρ = some ρ') :
    (body.foldl bindAssign vm).Sound env ρ' ∧ (∀ v, bound v → ρ' v = ρ v) ∧
      ∀ v x op y, .assign v x op y ∈ body → Assigned ρ' v x op y := by
  induction body generalizing bound vm ρ with
  | nil =>
    cases run
    exact ⟨sound, fun _ _ => rfl, fun _ _ _ _ h => absurd h List.not_mem_nil⟩
  | cons l body ih =>
    by_cases isAssign : ∃ w x op y, l = .assign w x op y
    · obtain ⟨w, x, op, y, rfl⟩ := isAssign
      obtain ⟨new, knownX, knownY, rest⟩ := order
      have columns {t : Term} (known : t.Known bound) : t.Known fun v => (vm.colRef v).isSome :=
        fun v hv => (names v).mpr (known v hv)
      rw [List.foldlM_cons] at run
      obtain ⟨ρ₁, first, run⟩ := Option.bind_eq_some_iff.mp run
      obtain ⟨a, ha, first⟩ := Option.bind_eq_some_iff.mp first
      obtain ⟨b, hb, first⟩ := Option.bind_eq_some_iff.mp first
      obtain ⟨z, hz, first⟩ := Option.bind_eq_some_iff.mp first
      cases first
      have fresh : vm.colRef w = none := by
        rw [← Option.not_isSome_iff_eq_none, names w]
        exact new
      have agree (v : String) (hv : bound v) : Function.update ρ w z v = ρ v := by
        refine Function.update_of_ne ?_ z ρ
        rintro rfl
        exact new hv
      -- the new column has the assigned value
      have value : (assignExpr vm x op y).eval env = some z := by
        simp only [assignExpr, Expr.eval, eval_render sound (columns knownX),
          eval_render sound (columns knownY), ha, hb]
        exact hz
      have sound₁ : (vm.bind w (assignExpr vm x op y)).Sound env (Function.update ρ w z) := by
        intro v e he
        rw [VarMap.colRef_bind] at he
        split at he
        · rename_i here
          cases he
          rw [here.1, Function.update_self]
          exact value
        · rw [agree v ((names v).mp (he ▸ rfl))]
          exact sound v e he
      have names₁ (v : String) :
          ((vm.bind w (assignExpr vm x op y)).colRef v).isSome ↔ bound v ∨ v = w := by
        rw [VarMap.colRef_bind, ← names v]
        by_cases same : v = w
        · simp [same, fresh]
        · simp [same]
      obtain ⟨soundAll, kept, assigned⟩ := ih names₁ sound₁ rest run
      refine ⟨soundAll, ?_, ?_⟩
      · intro v hv
        rw [kept v (.inl hv), agree v hv]
      · intro v' x' op' y' h
        obtain same | h := List.mem_cons.mp h
        · cases same
          have same (v : String) (hv : bound v) : ρ' v = ρ v := by rw [kept v (.inl hv), agree v hv]
          refine ⟨a, b, ?_, ?_, ?_⟩
          · rw [value_congr knownX same, ha]
          · rw [value_congr knownY same, hb]
          · rw [kept w (.inr rfl), Function.update_self]
            exact ArithOp.apply_of_applyBigint hz
        · exact assigned v' x' op' y' h
    · push Not at isAssign
      obtain ⟨noBind, noRun, noOrder⟩ := skips isAssign
      rw [List.foldlM_cons, noRun] at run
      rw [List.foldl_cons, noBind]
      simp only [mem_cons_assign isAssign]
      exact ih names sound ((noOrder _ _).mp order) run

/-- Assignments that are true, and can be carried out, give their columns the values of the
variables. -/
theorem sound_of_assigned (names : ∀ v, (vm.colRef v).isSome ↔ bound v) (sound : vm.Sound env ρ)
    (order : AssignsInOrder bound body) (run : (body.foldlM runAssign ρ).isSome)
    (assigned : ∀ v x op y, .assign v x op y ∈ body → Assigned ρ v x op y) :
    (body.foldl bindAssign vm).Sound env ρ := by
  induction body generalizing bound vm with
  | nil => exact sound
  | cons l body ih =>
    have rest v x op y (h : .assign v x op y ∈ body) : Assigned ρ v x op y :=
      assigned v x op y (List.mem_cons_of_mem l h)
    by_cases isAssign : ∃ w x op y, l = .assign w x op y
    · obtain ⟨w, x, op, y, rfl⟩ := isAssign
      obtain ⟨_, knownX, knownY, later⟩ := order
      have columns {t : Term} (known : t.Known bound) : t.Known fun v => (vm.colRef v).isSome :=
        fun v hv => (names v).mpr (known v hv)
      obtain ⟨a, b, ha, hb, hz⟩ := assigned w x op y List.mem_cons_self
      obtain ⟨ρ', run⟩ := Option.isSome_iff_exists.mp run
      rw [List.foldlM_cons] at run
      obtain ⟨ρ₁, first, run⟩ := Option.bind_eq_some_iff.mp run
      simp only [runAssign, ha, hb, Option.bind_eq_bind, Option.bind_some] at first
      obtain ⟨z, inRange, first⟩ := Option.bind_eq_some_iff.mp first
      obtain rfl : ρ w = z :=
        Option.some.inj (hz.symm.trans (ArithOp.apply_of_applyBigint inRange))
      obtain rfl : ρ = ρ₁ := (Function.update_eq_self w ρ).symm.trans (Option.some.inj first)
      have value : (assignExpr vm x op y).eval env = some (ρ w) := by
        simp only [assignExpr, Expr.eval, eval_render sound (columns knownX),
          eval_render sound (columns knownY), ha, hb]
        exact inRange
      have names₁ (v : String) :
          ((vm.bind w (assignExpr vm x op y)).colRef v).isSome ↔ bound v ∨ v = w := by
        rw [VarMap.colRef_bind, ← names v]
        by_cases same : v = w
        · subst same
          cases vm.colRef v <;> simp
        · simp [same]
      exact ih names₁ (sound.bind value) later (run ▸ rfl) rest
    · push Not at isAssign
      obtain ⟨noBind, noRun, noOrder⟩ := skips isAssign
      rw [List.foldlM_cons, noRun] at run
      rw [List.foldl_cons, noBind]
      exact ih names sound ((noOrder _ _).mp order) run rest

end Assigns

/-- Some positive atom gives the variable a column. -/
def Rule.AtomBinds (r : Rule) (v : String) : Prop := ∃ a ∈ r.positiveAtoms, a.Binds v

/-- The comparison is true. -/
def Compared (ρ : Valuation) (x : Term) (op : CompareOp) (y : Term) : Prop :=
  ∃ a b, x.value ρ = some a ∧ y.value ρ = some b ∧ op.test a b = true

/-- The seed of the rule, joined in this order, meets none of the exceptions. -/
structure WellJoined (ctx : Context) (r : Rule) (head : Atom) (atoms : List Atom) : Prop where
  /-- There is a first atom, which does not repeat a variable, and the others have something
  to be joined on. -/
  first : ∃ a rest, atoms = a :: rest ∧ a.Linear ∧
    ∀ b ∈ rest, b.Anchored ctx.settings.ruleGraphScope
  /-- Comparisons are on variables of the atoms. -/
  guards : ∀ x op y, .compare x op y ∈ r.body → x.Known r.AtomBinds ∧ y.Known r.AtomBinds
  assigns : AssignsInOrder r.AtomBinds r.body
  /-- No assignment divides by zero, leaves the range of `bigint` or reads a wildcard, wherever
  atoms and comparisons are true. -/
  values : ∀ ρ,
    (∀ a ∈ r.positiveAtoms, ∃ b ∈ ctx.facts, a.Matches ctx.settings.ruleGraphScope ρ b) →
    (∀ x op y, .compare x op y ∈ r.body → Compared ρ x op y) → (r.body.foldlM runAssign ρ).isSome
  /-- The head is made of constants and bound variables, with no variable graph. -/
  columns : ∀ t ∈ [head.s, head.o], t ≠ .wildcard ∧
    t.Known fun v => r.AtomBinds v ∨ ∃ x op y, .assign v x op y ∈ r.body
  graph : ∀ v, head.g ≠ .var v

section Joins

variable {ctx : Context} {atoms : List Atom} {env : List Key} {ρ : Valuation} {v : String}

theorem binds_of_colRef_addAtoms {items : List (Source × Atom)} {plan : Plan}
    (h : ((plan.addAtoms ctx items).varMap.colRef v).isSome) :
    (plan.varMap.colRef v).isSome ∨ ∃ item ∈ items, item.2.Binds v := by
  induction items generalizing plan with
  | nil => exact .inl h
  | cons item items ih =>
    obtain h | ⟨later, hlater, binds⟩ := @ih (plan.addAtom ctx item.1 item.2 []) h
    · rw [varMap_addAtom] at h
      have term {vm : VarMap} {t : Term} {e : Expr} (h : ((vm.bindTerm t e).colRef v).isSome) :
          (vm.colRef v).isSome ∨ t = .var v := by
        cases t with
        | var w =>
          rw [VarMap.bindTerm, VarMap.colRef_bind] at h
          split at h
          · rename_i new
            exact .inr (congrArg Term.var new.1.symm)
          · exact .inl h
        | _ => exact .inl h
      have here (binds : item.2.Binds v) : ∃ i ∈ item :: items, i.2.Binds v :=
        ⟨item, List.mem_cons_self, binds⟩
      obtain h | g := term h
      · obtain h | o := term h
        · obtain h | s := term h
          · exact .inl h
          · exact .inr (here (.inl s))
        · exact .inr (here (.inr (.inl o)))
      · exact .inr (here (.inr (.inr g)))
    · exact .inr ⟨later, List.mem_cons_of_mem item hlater, binds⟩

theorem colRef_joinPlan : ((joinPlan ctx atoms).varMap.colRef v).isSome ↔
    ∃ a ∈ atoms, a.Binds v := by
  constructor
  · intro h
    obtain h | ⟨item, hitem, binds⟩ := binds_of_colRef_addAtoms h
    · cases h
    · obtain ⟨a, ha, rfl⟩ := List.mem_map.mp hitem
      exact ⟨a, ha, binds⟩
  · intro ⟨a, ha, binds⟩
    have item : storedItem a ∈ atoms.map storedItem := List.mem_map_of_mem ha
    exact isSome_colRef_of_mem item binds

/-- The tables that the joined atoms read. -/
theorem sources_joinPlan : (joinPlan ctx atoms).from_.map FromItem.source =
    atoms.map fun a => .stored (a.pred?.getD 0) := by
  rw [joinPlan, sources_addAtoms, List.map_map]
  rfl

theorem exists_of_joinPlan (linear : ∀ a, atoms.head? = some a → a.Linear)
    (const : ∀ a ∈ atoms, a.pred?.isSome)
    (rows : List.Forall₂ (fun k a => k ∈ ctx.stored (a.pred?.getD 0)) env atoms)
    (conds : ∀ c ∈ (joinPlan ctx atoms).conds, ctx.holds env c = true) :
    ∀ a ∈ atoms, ∃ b ∈ ctx.facts, a.Matches ctx.settings.ruleGraphScope
      ((joinPlan ctx atoms).valuation env) b := by
  intro a ha
  obtain ⟨j, hj, rfl⟩ := List.mem_iff_getElem.mp ha
  have length : env.length = atoms.length := rows.length_eq
  have bound : j < env.length := length ▸ hj
  obtain ⟨p, hp⟩ := Option.isSome_iff_exists.mp (const _ ha)
  have stored := (List.forall₂_iff_get.mp rows).2 j bound hj
  rw [List.get_eq_getElem, List.get_eq_getElem, hp, Option.getD_some] at stored
  refine ⟨env[j].quad p, stored, ?_⟩
  have parts : (atoms.take j).map storedItem ++ storedItem atoms[j] ::
      (atoms.drop (j + 1)).map storedItem = atoms.map storedItem := by
    rw [← List.map_cons, ← List.map_append]
    simp
  have whole : (Plan.empty.addAtoms ctx ((atoms.take j).map storedItem ++
      ((storedItem atoms[j]).1, atoms[j]) :: (atoms.drop (j + 1)).map storedItem)).Extends
        (joinPlan ctx atoms) := by
    have same : ((storedItem atoms[j]).1, atoms[j]) = storedItem atoms[j] := rfl
    rw [same, parts]
    exact .refl _
  refine matches_of_addAtoms whole conds (sound_valuation (by rw [List.length_map, length])) ?_
    (eq_const_of_pred hp) ?_
  · simp [Nat.min_eq_left (Nat.le_of_lt hj), bound]
  · intro none
    have zero : j = 0 := by
      have taken := congrArg List.length none
      rwa [List.length_map, List.length_take, Nat.min_eq_left (Nat.le_of_lt hj)] at taken
    subst zero
    exact linear _ (List.head?_eq_getElem? ▸ List.getElem?_eq_getElem hj)

end Joins

section Exact

variable {ctx : Context} {r : Rule} {head : Atom} {atoms : List Atom} {push : Pushdown}
  {I : Interpretation} {N : Set Quad} {plan : Plan} {p : TermId}

/-- A finished plan: the joins of the atoms, all comparisons, and the assigned columns. -/
structure Finished (ctx : Context) (r : Rule) (atoms : List Atom) (plan : Plan) : Prop where
  sources : plan.from_.map FromItem.source = (joinPlan ctx atoms).from_.map FromItem.source
  varMap : plan.varMap = r.body.foldl bindAssign (joinPlan ctx atoms).varMap
  conds : ∀ c, c ∈ plan.conds ↔ c ∈ (joinPlan ctx atoms).conds ∨
    ∃ x op y, .compare x op y ∈ r.body ∧
      c = .compare ((joinPlan ctx atoms).varMap.render x) op ((joinPlan ctx atoms).varMap.render y)
  on : ∀ item ∈ plan.from_.tail, item.on ≠ []

theorem Rule.Computes.const (computes : r.Computes) : ∀ a ∈ r.positiveAtoms, a.pred?.isSome := by
  intro a ha
  obtain ⟨b, same, const⟩ | ⟨_, _, _, same⟩ | ⟨_, _, _, _, same⟩ :=
    computes _ (Rule.mem_positiveAtoms.mp ha)
  · cases same
    exact const
  · cases same
  · cases same

theorem Rule.Computes.temporalFilters_eq (computes : r.Computes) : temporalFilters r = [] := by
  rw [temporalFilters, List.filterMap_eq_nil_iff]
  intro l hl
  obtain ⟨a, rfl, _⟩ | ⟨x, op, y, rfl⟩ | ⟨v, x, op, y, rfl⟩ := computes l hl <;> rfl

theorem mem_guards (computes : r.Computes) {g : BodyLiteral} :
    g ∈ r.body.filter BodyLiteral.isGuard ↔ ∃ x op y, .compare x op y ∈ r.body ∧
      g = .compare x op y := by
  rw [List.mem_filter]
  constructor
  · intro ⟨hg, isGuard⟩
    obtain ⟨a, rfl, _⟩ | ⟨x, op, y, rfl⟩ | ⟨v, x, op, y, rfl⟩ := computes g hg
    · cases isGuard
    · exact ⟨x, op, y, hg, rfl⟩
    · cases isGuard
  · rintro ⟨x, op, y, hg, rfl⟩
    exact ⟨hg, rfl⟩

/-- The compiler succeeds, in whatever order and with whatever pushdown. -/
theorem exists_finished (computes : r.Computes) (perm : atoms.Perm r.positiveAtoms)
    (only : ∀ vm g, push vm g = true → guardFullyBound vm g = true)
    (joined : WellJoined ctx r head atoms) :
    ∃ plan, pushedPlan ctx r push atoms = .ok plan ∧ Finished ctx r atoms plan := by
  have const (a : Atom) (ha : a ∈ atoms) : a.pred?.isSome := computes.const a (perm.mem_iff.mp ha)
  have compares (g : BodyLiteral) (hg : g ∈ r.body.filter BodyLiteral.isGuard) :
      ∃ x op y, g = .compare x op y := by
    obtain ⟨x, op, y, _, rfl⟩ := (mem_guards computes).mp hg
    exact ⟨x, op, y, rfl⟩
  obtain ⟨plan, waiting, folded, pushed⟩ := exists_pushed ctx compares only const
  -- there is nothing to negate
  have negated : r.body.foldlM (seedNegated ctx) plan = .ok plan := by
    refine Fold.foldlM_eq_self fun l hl => ?_
    obtain ⟨a, rfl, _⟩ | ⟨x, op, y, rfl⟩ | ⟨v, x, op, y, rfl⟩ := computes l hl <;> rfl
  have sequential : r.body.filterMap (sequentialCond ctx plan.varMap) = [] := by
    rw [List.filterMap_eq_nil_iff]
    intro l hl
    obtain ⟨a, rfl, _⟩ | ⟨x, op, y, rfl⟩ | ⟨v, x, op, y, rfl⟩ := computes l hl <;> rfl
  -- all variables have a column in the end
  have named (v : String) (h : r.AtomBinds v ∨ ∃ x op y, .assign v x op y ∈ r.body) :
      ((r.body.foldl bindAssign plan.varMap).colRef v).isSome := by
    rw [colRef_foldl_bindAssign]
    refine h.imp_left ?_
    rintro ⟨a, ha, binds⟩
    rw [pushed.varMap, colRef_joinPlan]
    exact ⟨a, perm.mem_iff.mpr ha, binds⟩
  have checks : r.body.forM (checkBound r (r.body.foldl bindAssign plan.varMap)) = .ok () := by
    refine Fold.forM_eq_ok fun l hl => ?_
    obtain ⟨a, rfl, _⟩ | ⟨x, op, y, rfl⟩ | ⟨v, x, op, y, rfl⟩ := computes l hl
    · rfl
    · obtain ⟨knownX, knownY⟩ := joined.guards x op y hl
      refine Fold.forM_eq_ok fun t ht => ?_
      cases t with
      | var w =>
        have bound : r.AtomBinds w := by
          obtain same | same := List.mem_pair.mp ht
          · exact knownX w same.symm
          · exact knownY w same.symm
        exact if_pos (named w (.inl bound))
      | _ => rfl
    · obtain ⟨knownX, knownY⟩ := known_of_assignsInOrder joined.assigns hl
      refine Fold.forM_eq_ok fun t ht => ?_
      cases t with
      | var w =>
        have bound : r.AtomBinds w ∨ ∃ x op y, .assign w x op y ∈ r.body := by
          obtain same | same := List.mem_pair.mp ht
          · exact knownX w same.symm
          · exact knownY w same.symm
        refine if_pos ?_
        rw [named w bound]
        rfl
      | _ => rfl
  obtain ⟨first, rest, rfl, _, anchored⟩ := joined.first
  refine ⟨{ plan with
    where_ := plan.where_ ++ waiting.filterMap (compileGuardSql plan.varMap)
    varMap := r.body.foldl bindAssign plan.varMap }, ?_, ?_⟩
  · rw [pushedPlan, computes.temporalFilters_eq, folded]
    simp only [Except.bind, negated, latePlan, sequential, checks, Except.map, List.append_nil]
  · refine ⟨pushed.sources, ?_, ?_, pushed.on anchored⟩
    · rw [pushed.varMap]
    · intro c
      obtain ⟨moved, parts, _, conds⟩ := pushed.conds
      have guards : (∃ x op y, .compare x op y ∈ r.body ∧
            c = .compare (plan.varMap.render x) op (plan.varMap.render y)) ↔
          ∃ g ∈ r.body.filter BodyLiteral.isGuard, compileGuardSql plan.varMap g = some c := by
        constructor
        · rintro ⟨x, op, y, hg, rfl⟩
          exact ⟨.compare x op y, (mem_guards computes).mpr ⟨x, op, y, hg, rfl⟩, rfl⟩
        · rintro ⟨g, hg, hc⟩
          obtain ⟨x, op, y, inBody, rfl⟩ := (mem_guards computes).mp hg
          cases hc
          exact ⟨x, op, y, inBody, rfl⟩
      have whole : c ∈ plan.from_.flatMap FromItem.on ++
          (plan.where_ ++ waiting.filterMap (compileGuardSql plan.varMap)) ↔
          c ∈ plan.conds ∨ ∃ g ∈ waiting, compileGuardSql plan.varMap g = some c := by
        rw [← List.append_assoc, List.mem_append, List.mem_filterMap]
        rfl
      rw [← pushed.varMap, guards]
      refine whole.trans ?_
      simp only [conds c, parts, or_and_right, exists_or, or_assoc]

/-- The statement succeeds, and the rows it inserts are the instances of the rule with
stored premises. -/
def InsertsInstances (I : Interpretation) (ctx : Context) (r : Rule) (p : TermId)
    (outcome : Except String (Option (List Key))) : Prop :=
  ∃ rows, outcome = .ok (some rows) ∧ ∀ k, k ∈ rows ↔
    ∃ ρ chosen, I.Instance r ∅ ρ chosen (k.quad p) ∧ ∀ b ∈ chosen, b ∈ ctx.facts

theorem matches_congr {scope : GraphScope} {a : Atom} {b : Quad} {ρ ρ' : Valuation}
    (const : a.pred?.isSome) (agree : ∀ v, a.Binds v → ρ' v = ρ v) (h : a.Matches scope ρ b) :
    a.Matches scope ρ' b := by
  have position {t : Term} {x : TermId} (agree : ∀ v, t = .var v → ρ' v = ρ v)
      (accepts : t.Accepts ρ x) : t.Accepts ρ' x := by
    cases t with
    | var v => exact (agree v rfl).trans accepts
    | _ => exact accepts
  obtain ⟨p, hp⟩ := Option.isSome_iff_exists.mp const
  refine ⟨position (fun v hv => agree v (.inl hv)) h.s, ?_,
    position (fun v hv => agree v (.inr (.inl hv))) h.o, ?_⟩
  · rw [eq_const_of_pred hp]
    exact (Interpretation.pred_of_matches h hp).symm
  · have graph := h.g
    cases term : a.g with
    | var v =>
      rw [term] at graph
      exact (agree v (.inr (.inr term))).trans graph
    | _ =>
      rw [term] at graph
      exact graph

/-- A column of the head has the value of its term. -/
theorem exists_headColumn {vm : VarMap} {t : Term} (notWild : t ≠ .wildcard)
    (known : t.Known fun v => (vm.colRef v).isSome) :
    ∃ e, headColumn vm seedHeadOther t = .ok e ∧
      ∀ env ρ, vm.Sound env ρ → e.eval env = t.value ρ := by
  cases t with
  | var v =>
    obtain ⟨e, he⟩ := Option.isSome_iff_exists.mp (known v rfl)
    exact ⟨e, by simp [headColumn, he], fun env ρ sound => sound v e he⟩
  | const id => exact ⟨.const id, rfl, fun _ _ _ => rfl⟩
  | wildcard => exact absurd rfl notWild
  | defaultGraph => exact ⟨.const 0, rfl, fun _ _ _ => rfl⟩

theorem value_isSome {t : Term} (notWild : t ≠ .wildcard) (ρ : Valuation) :
    ∃ x, t.value ρ = some x := by
  cases t with
  | wildcard => exact absurd rfl notWild
  | _ => exact ⟨_, rfl⟩

/-- A joined row that passes all conditions satisfies the body. -/
theorem exists_of_row (computes : r.Computes) (perm : atoms.Perm r.positiveAtoms)
    (joined : WellJoined ctx r head atoms) (finished : Finished ctx r atoms plan) {env : List Key}
    (rows : List.Forall₂ (fun k a => k ∈ ctx.stored (a.pred?.getD 0)) env atoms)
    (conds : ∀ c ∈ plan.conds, ctx.holds env c = true) :
    ∃ ρ, plan.varMap.Sound env ρ ∧
      (∀ a ∈ r.positiveAtoms, ∃ b ∈ ctx.facts, a.Matches ctx.settings.ruleGraphScope ρ b) ∧
      (∀ x op y, .compare x op y ∈ r.body → Compared ρ x op y) ∧
      ∀ v x op y, .assign v x op y ∈ r.body → Assigned ρ v x op y := by
  have const (a : Atom) (ha : a ∈ atoms) : a.pred?.isSome := computes.const a (perm.mem_iff.mp ha)
  have linear (a : Atom) (ha : atoms.head? = some a) : a.Linear := by
    obtain ⟨first, rest, rfl, linear, _⟩ := joined.first
    cases ha
    exact linear
  have names (v : String) : ((joinPlan ctx atoms).varMap.colRef v).isSome ↔ r.AtomBinds v := by
    simp only [colRef_joinPlan, Rule.AtomBinds, perm.mem_iff]
  let ρ := (joinPlan ctx atoms).valuation env
  have sound : (joinPlan ctx atoms).varMap.Sound env ρ :=
    sound_valuation (by rw [List.length_map, rows.length_eq])
  have matched := exists_of_joinPlan linear const rows fun c hc =>
    conds c ((finished.conds c).mpr (.inl hc))
  have atomsHold (a : Atom) (ha : a ∈ r.positiveAtoms) :
      ∃ b ∈ ctx.facts, a.Matches ctx.settings.ruleGraphScope ρ b :=
    matched a (perm.mem_iff.mpr ha)
  have columns {t : Term} (known : t.Known r.AtomBinds) :
      t.Known fun v => ((joinPlan ctx atoms).varMap.colRef v).isSome :=
    fun v hv => (names v).mpr (known v hv)
  have compared (x : Term) (op : CompareOp) (y : Term) (h : .compare x op y ∈ r.body) :
      Compared ρ x op y := by
    have holds := conds _ ((finished.conds _).mpr (.inr ⟨x, op, y, h, rfl⟩))
    obtain ⟨knownX, knownY⟩ := joined.guards x op y h
    simp only [Database.holds, eval_render sound (columns knownX),
      eval_render sound (columns knownY)] at holds
    split at holds
    · rename_i a b ha hb
      exact ⟨a, b, ha, hb, holds⟩
    · cases holds
  obtain ⟨ρ', run⟩ := Option.isSome_iff_exists.mp (joined.values ρ atomsHold compared)
  obtain ⟨sound', kept, assigned⟩ := sound_assigns names sound joined.assigns run
  refine ⟨ρ', finished.varMap ▸ sound', ?_, ?_, assigned⟩
  · intro a ha
    obtain ⟨b, hb, isMatch⟩ := atomsHold a ha
    exact ⟨b, hb, matches_congr (computes.const a ha) (fun v hv => kept v ⟨a, ha, hv⟩) isMatch⟩
  · intro x op y h
    obtain ⟨a, b, ha, hb, test⟩ := compared x op y h
    obtain ⟨knownX, knownY⟩ := joined.guards x op y h
    exact ⟨a, b, (value_congr knownX kept).trans ha, (value_congr knownY kept).trans hb, test⟩

/-- A substitution that satisfies the body is a joined row. -/
theorem exists_row (computes : r.Computes) (perm : atoms.Perm r.positiveAtoms)
    (joined : WellJoined ctx r head atoms) (finished : Finished ctx r atoms plan) {ρ : Valuation}
    (matched : ∀ a ∈ r.positiveAtoms, ∃ b ∈ ctx.facts, a.Matches ctx.settings.ruleGraphScope ρ b)
    (compared : ∀ x op y, .compare x op y ∈ r.body → Compared ρ x op y)
    (assigned : ∀ v x op y, .assign v x op y ∈ r.body → Assigned ρ v x op y) :
    ∃ env, List.Forall₂ (fun k a => k ∈ ctx.stored (a.pred?.getD 0)) env atoms ∧
      (∀ c ∈ plan.conds, ctx.holds env c = true) ∧ plan.varMap.Sound env ρ := by
  have each (a : Atom) (ha : a ∈ atoms) : ∃ b : Quad,
      a.Matches ctx.settings.ruleGraphScope ρ b ∧ b.key ∈ ctx.stored (a.pred?.getD 0) := by
    obtain ⟨b, hb, isMatch⟩ := matched a (perm.mem_iff.mp ha)
    obtain ⟨p, hp⟩ := Option.isSome_iff_exists.mp (computes.const a (perm.mem_iff.mp ha))
    refine ⟨b, isMatch, ?_⟩
    rw [hp, Option.getD_some, ← Interpretation.pred_of_matches isMatch hp]
    exact hb
  obtain ⟨ordered, hordered⟩ := exists_of_forall_mem each
  have spec : PlanSpec ctx (ordered.map Quad.key) ρ (atoms.map storedItem)
      (joinPlan ctx atoms) := by
    refine planSpec_empty.foldl_addAtom [] rfl rfl ?_
    rw [List.forall₂_map_left_iff]
    exact hordered.imp fun _ _ h => h.1
  have names (v : String) : ((joinPlan ctx atoms).varMap.colRef v).isSome ↔ r.AtomBinds v := by
    simp only [colRef_joinPlan, Rule.AtomBinds, perm.mem_iff]
  have columns {t : Term} (known : t.Known r.AtomBinds) :
      t.Known fun v => ((joinPlan ctx atoms).varMap.colRef v).isSome :=
    fun v hv => (names v).mpr (known v hv)
  refine ⟨ordered.map Quad.key, ?_, ?_, ?_⟩
  · rw [List.forall₂_map_left_iff]
    exact hordered.flip.imp fun _ _ h => h.2
  · intro c hc
    obtain hc | ⟨x, op, y, h, rfl⟩ := (finished.conds c).mp hc
    · exact spec.conds c hc
    · obtain ⟨a, b, ha, hb, test⟩ := compared x op y h
      obtain ⟨knownX, knownY⟩ := joined.guards x op y h
      simp only [Database.holds, eval_render spec.sound (columns knownX),
        eval_render spec.sound (columns knownY), ha, hb]
      exact test
  · rw [finished.varMap]
    exact sound_of_assigned names spec.sound joined.assigns
      (joined.values ρ matched compared) assigned

theorem mem_envs_finished (finished : Finished ctx r atoms plan) {query : Query}
    (from_ : query.from_ = plan.from_) (where_ : query.where_ = plan.where_) {env : List Key} :
    env ∈ query.envs ctx.toDatabase [] ↔
      List.Forall₂ (fun k a => k ∈ ctx.stored (a.pred?.getD 0)) env atoms ∧
        ∀ c ∈ plan.conds, ctx.holds env c = true := by
  let Reads (k : Key) (source : Source) : Prop := k ∈ ctx.rows [] source
  have tables : List.Forall₂ (fun k item => k ∈ ctx.rows [] item.source) env plan.from_ ↔
      List.Forall₂ Reads env (plan.from_.map FromItem.source) :=
    (List.forall₂_map_right_iff (R := Reads) (f := FromItem.source)).symm
  have conds : query.conds = plan.conds := by rw [Query.conds, from_, where_, Plan.conds]
  rw [Query.mem_envs, conds, from_, tables, finished.sources, sources_joinPlan,
    List.forall₂_map_right_iff]
  rfl

/-- A statement whose columns have the values of the head. -/
structure SelectsHead (head : Atom) (plan : Plan) (query : Query) : Prop where
  from_ : query.from_ = plan.from_
  where_ : query.where_ = plan.where_
  graph : query.g.isSome
  /-- A joined row is selected, and the selected row is the conclusion. -/
  select : ∀ env ρ, plan.varMap.Sound env ρ → ∃ k, query.select env = some k ∧
    head.s.value ρ = some k.s ∧ head.o.value ρ = some k.o ∧ (head.g.value ρ).getD 0 = k.g

theorem exists_selectsHead (perm : atoms.Perm r.positiveAtoms)
    (joined : WellJoined ctx r head atoms)
    (finished : Finished ctx r atoms plan) :
    ∃ query, plan.finish head seedHeadOther = .ok query ∧ SelectsHead head plan query := by
  have named {t : Term} (ht : t ∈ [head.s, head.o]) :
      t.Known fun v => (plan.varMap.colRef v).isSome := by
    intro v hv
    rw [finished.varMap, colRef_foldl_bindAssign, colRef_joinPlan]
    refine ((joined.columns t ht).2 v hv).imp_left fun ⟨a, ha, binds⟩ => ?_
    exact ⟨a, perm.mem_iff.mpr ha, binds⟩
  have wildS : head.s ≠ .wildcard := (joined.columns head.s (by simp)).1
  have wildO : head.o ≠ .wildcard := (joined.columns head.o (by simp)).1
  obtain ⟨s, hs, valueS⟩ := exists_headColumn wildS (named (by simp))
  obtain ⟨o, ho, valueO⟩ := exists_headColumn wildO (named (by simp))
  obtain ⟨g, hg, valueG⟩ : ∃ g, headGExpr head.g = some g ∧ ∀ ρ, (head.g.value ρ).getD 0 = g := by
    cases term : head.g with
    | var v => exact absurd term (joined.graph v)
    | const id => exact ⟨id, rfl, fun _ => rfl⟩
    | wildcard => exact ⟨0, rfl, fun _ => rfl⟩
    | defaultGraph => exact ⟨0, rfl, fun _ => rfl⟩
  refine ⟨_, finish_eq_ok.mpr ⟨s, o, hs, ho, rfl⟩, rfl, rfl, ?_, ?_⟩
  · rw [hg]
    rfl
  · intro env ρ sound
    obtain ⟨x, hx⟩ := value_isSome wildS ρ
    obtain ⟨y, hy⟩ := value_isSome wildO ρ
    refine ⟨⟨x, y, g⟩, ?_, hx, hy, valueG ρ⟩
    simp only [Query.select, valueS env ρ sound, valueO env ρ sound, hx, hy, hg]
    rfl

/-- In every order of the positive atoms that meets none of the exceptions, and wherever the
guards are tested, the statement inserts the instances of the rule. -/
theorem insertsInstances_pushed (computes : r.Computes) (hh : r.head = some head)
    (hp : head.p = .const p) (same : I.scope = ctx.settings.ruleGraphScope)
    (perm : atoms.Perm r.positiveAtoms)
    (only : ∀ vm g, push vm g = true → guardFullyBound vm g = true)
    (joined : WellJoined ctx r head atoms) :
    InsertsInstances I ctx r p (pushedOutcome ctx r head push atoms) := by
  obtain ⟨plan, compiled, finished⟩ := exists_finished computes perm only joined
  obtain ⟨query, finish, selects⟩ := exists_selectsHead perm joined finished
  have mem {env : List Key} : env ∈ query.envs ctx.toDatabase [] ↔
      List.Forall₂ (fun k a => k ∈ ctx.stored (a.pred?.getD 0)) env atoms ∧
        ∀ c ∈ plan.conds, ctx.holds env c = true :=
    mem_envs_finished finished selects.from_ selects.where_
  have wellFormed : query.wellFormed = true := by
    obtain ⟨first, rest, rfl, _, _⟩ := joined.first
    have items := finished.sources.trans sources_joinPlan
    simp only [Query.wellFormed, selects.from_, Bool.and_eq_true, Bool.not_eq_true',
      List.all_eq_true, List.isEmpty_eq_false_iff]
    refine ⟨⟨?_, finished.on⟩, selects.graph⟩
    rintro none
    rw [none] at items
    cases items
  have accepted : (query.envs ctx.toDatabase []).all
      (fun env => (query.select env).isSome) = true := by
    rw [List.all_eq_true]
    intro env henv
    obtain ⟨rows, conds⟩ := mem.mp henv
    obtain ⟨ρ, sound, _⟩ := exists_of_row computes perm joined finished rows conds
    obtain ⟨k, selected, _⟩ := selects.select env ρ sound
    rw [selected]
    rfl
  refine ⟨(query.envs ctx.toDatabase []).filterMap query.select, ?_, ?_⟩
  · simp only [pushedOutcome, compiled, Except.bind, finish, Except.map, Query.exec, wellFormed,
      accepted, Bool.and_self, if_true]
  · intro k
    rw [List.mem_filterMap]
    constructor
    · rintro ⟨env, henv, selected⟩
      obtain ⟨rows, conds⟩ := mem.mp henv
      obtain ⟨ρ, sound, matched, compared, assigned⟩ :=
        exists_of_row computes perm joined finished rows conds
      obtain ⟨k', selected', hs, ho, hg⟩ := selects.select env ρ sound
      rw [selected] at selected'
      cases selected'
      obtain ⟨chosen, hchosen⟩ := exists_of_forall_mem matched
      refine ⟨ρ, chosen, ⟨⟨head, hh, hs, ?_, ho, hg⟩, ?_, ?_⟩, ?_⟩
      · rw [hp]
        rfl
      · refine hchosen.imp fun a b h => ⟨same ▸ h.2, ?_⟩
        rintro ⟨filters, _⟩
        exact absurd computes.temporalFilters_eq filters
      · intro l hl
        obtain ⟨a, rfl, _⟩ | ⟨x, op, y, rfl⟩ | ⟨v, x, op, y, rfl⟩ := computes l hl
        · trivial
        · exact compared x op y hl
        · exact assigned v x op y hl
      · intro b hb
        obtain ⟨a, _, h⟩ := Fold.exists_right_of_forall₂ hchosen.flip hb
        exact h.1
    · rintro ⟨ρ, chosen, inst, stored⟩
      have matched (a : Atom) (ha : a ∈ r.positiveAtoms) :
          ∃ b ∈ ctx.facts, a.Matches ctx.settings.ruleGraphScope ρ b := by
        obtain ⟨b, hb, isMatch⟩ := Fold.exists_right_of_forall₂ inst.atoms ha
        exact ⟨b, stored b hb, same ▸ isMatch.1⟩
      obtain ⟨env, rows, conds, sound⟩ := exists_row computes perm joined finished matched
        (fun x op y h => inst.literals _ h) fun v x op y h => inst.literals _ h
      refine ⟨env, mem.mpr ⟨rows, conds⟩, ?_⟩
      obtain ⟨k', selected, hs, ho, hg⟩ := selects.select env ρ sound
      have concludes := inst.concludes hh
      have same : k' = k := by
        obtain ⟨s, o, g⟩ := k
        obtain ⟨s', o', g'⟩ := k'
        cases concludes.s.symm.trans hs
        cases concludes.o.symm.trans ho
        cases concludes.g.symm.trans hg
        rfl
      rw [selected, same]

end Exact

/-- Two predicates with one triple each, and their estimated sizes. -/
def twoTables (count₁ count₂ : Int) : Context where
  ext := Environment.bare.ext
  stored := fun p => if p = 21 then [⟨101, 102, 0⟩] else if p = 22 then [⟨101, 103, 0⟩] else []
  tripleCount := fun p => if p = 21 then count₁ else count₂
  settings := {}

/-- `?x <11> ?z :- ?x <21> ?y, ?x <22> ?w, ?y < ?w, ?z IS ?y + ?w .` -/
def sumRule : Rule :=
  ⟨some (edge "x" 11 "z"), [.positive (edge "x" 21 "y"), .positive (edge "x" 22 "w"),
    .compare (.var "y") .lt (.var "w"), .assign "z" (.var "y") .add (.var "w")],
    "?x <11> ?z :- ?x <21> ?y, ?x <22> ?w, ?y < ?w, ?z IS ?y + ?w ."⟩

theorem atomBinds_sumRule (v : String) : sumRule.AtomBinds v ↔ v = "x" ∨ v = "y" ∨ v = "w" := by
  have atoms : sumRule.positiveAtoms = [edge "x" 21 "y", edge "x" 22 "w"] := rfl
  simp only [Rule.AtomBinds, atoms, List.mem_pair]
  simp [Atom.Binds, edge, eq_comm]
  tauto

theorem wellJoined_sumRule (count₁ count₂ : Int) {atoms : List Atom}
    (perm : atoms.Perm sumRule.positiveAtoms) :
    WellJoined (twoTables count₁ count₂) sumRule (edge "x" 11 "z") atoms where
  first := by
    have either (a : Atom) (ha : a ∈ atoms) : a = edge "x" 21 "y" ∨ a = edge "x" 22 "w" :=
      List.mem_pair.mp (perm.mem_iff.mp ha)
    cases atoms with
    | nil => exact absurd perm.length_eq (by decide)
    | cons a rest =>
      refine ⟨a, rest, rfl, ?_, ?_⟩
      · obtain rfl | rfl := either a List.mem_cons_self <;> constructor <;> simp [edge]
      · intro b hb
        obtain rfl | rfl := either b (List.mem_cons_of_mem a hb) <;> exact .inl ⟨"x", .inl rfl⟩
  guards := by
    intro x op y h
    simp only [sumRule, List.mem_cons, reduceCtorEq, BodyLiteral.compare.injEq, List.not_mem_nil,
      or_false, false_or] at h
    obtain ⟨rfl, rfl, rfl⟩ := h
    refine ⟨fun v hv => ?_, fun v hv => ?_⟩
    · cases hv
      exact (atomBinds_sumRule _).mpr (.inr (.inl rfl))
    · cases hv
      exact (atomBinds_sumRule _).mpr (.inr (.inr rfl))
  assigns := by
    refine ⟨?_, fun v hv => ?_, fun v hv => ?_, trivial⟩
    · rw [atomBinds_sumRule]
      decide
    · cases hv
      exact (atomBinds_sumRule _).mpr (.inr (.inl rfl))
    · cases hv
      exact (atomBinds_sumRule _).mpr (.inr (.inr rfl))
  values := by
    intro ρ matched _
    have value (v : String) (p x : TermId)
        (stored : (twoTables count₁ count₂).stored p = [⟨101, x, 0⟩])
        (ha : edge "x" p v ∈ sumRule.positiveAtoms) : ρ v = x := by
      obtain ⟨b, hb, isMatch⟩ := matched _ ha
      have here : b.key ∈ (twoTables count₁ count₂).stored b.p := hb
      rw [← isMatch.p, stored, List.mem_singleton] at here
      exact isMatch.o.trans (congrArg Key.o here)
    have y : ρ "y" = 102 := value "y" 21 102 rfl List.mem_cons_self
    have w : ρ "w" = 103 := value "w" 22 103 rfl (List.mem_cons_of_mem _ List.mem_cons_self)
    have sum : ArithOp.add.applyBigint 102 103 = some 205 := by decide
    simp [sumRule, runAssign, Term.value, y, w, sum]
  columns := by
    intro t ht
    obtain rfl | rfl := List.mem_pair.mp ht
    · refine ⟨by decide, fun v hv => .inl ?_⟩
      cases hv
      exact (atomBinds_sumRule _).mpr (.inl rfl)
    · refine ⟨by decide, fun v hv => .inr ?_⟩
      cases hv
      exact ⟨.var "y", .add, .var "w", by decide⟩
  graph := fun v h => by cases h

/-- `?x <11> ?y :- ?x <21> ?x, ?x <22> ?y .` -/
def selfRule : Rule :=
  ⟨some (edge "x" 11 "y"), [.positive (edge "x" 21 "x"), .positive (edge "x" 22 "y")],
    "?x <11> ?y :- ?x <21> ?x, ?x <22> ?y ."⟩

end PgRipple.Datalog
