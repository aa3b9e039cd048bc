import PgRipple.Datalog.Coverage

/-!
# Recorded derivations

With `record_derivations` on, every rule of an inference run gets one more statement. It
joins the positive body atoms over `vp_rare` once more, joins the result with the head
triples that are new, and records the statement ids. The join conditions of an atom stand
in its `ON` clause, and the first atom has none: what its own constants and repeated
variables ask for is computed and dropped.

The statement is therefore the exact one of another rule, whose first atom is
`Atom.loosened`.
-/

namespace PgRipple.Datalog

open Storage

namespace Derivations

/-- `b{t}.c = expr`. -/
structure OnEq where
  col : Col
  expr : Expr
  deriving DecidableEq, Repr

/-- The variables bound so far, and the join conditions of the current atom. -/
structure Scan where
  varMap : VarMap
  joinConds : List OnEq

/-- One position of an atom: the first occurrence of a variable binds it, a later one and a
constant are conditions. -/
def scanTerm (t : Nat) (c : Col) (scan : Scan) : Term → Scan
  | .var v =>
    match scan.varMap.colRef v with
    | some existing => { scan with joinConds := scan.joinConds ++ [⟨c, existing⟩] }
    | none => { scan with varMap := scan.varMap.bind v (.col t c) }
  | .const id => { scan with joinConds := scan.joinConds ++ [⟨c, .const id⟩] }
  | _ => scan

/-- Subject, object and graph of the atom with alias `b{t}`. -/
def scanAtom (t : Nat) (vm : VarMap) (a : Atom) : Scan :=
  scanTerm t .g (scanTerm t .o (scanTerm t .s ⟨vm, []⟩ a.s) a.o) a.g

/-- `(SELECT s, o, g, i FROM _pg_ripple.vp_rare WHERE p = …) AS b{t} ON …`. -/
structure JoinItem where
  pred : TermId
  on : List OnEq

/-- The `FROM` list from alias `b{t}` on. -/
def fromJoinParts : (t : Nat) → VarMap → List Atom → Option (VarMap × List JoinItem)
  | _, vm, [] => some (vm, [])
  | t, vm, a :: atoms => do
    let predId ← a.pred?
    let scan := scanAtom t vm a
    let (vm, items) ← fromJoinParts (t + 1) scan.varMap atoms
    return (vm, ⟨predId, if t = 0 then [] else scan.joinConds⟩ :: items)

/-- `head_s_sql` and `head_o_sql`. -/
def headSql (vm : VarMap) : Term → Option Expr
  | .var v => vm.colRef v
  | .const id => some (.const id)
  | _ => none

/-- `head_g_sql`. -/
def headGSql (vm : VarMap) : Term → Expr
  | .var v => (vm.colRef v).getD (.const 0)
  | .const id => .const id
  | _ => .const 0

/-- What is written to `_pg_ripple.derivations`. -/
inductive RecordStmt where
  /-- The join of the body with the new head triples. -/
  | antecedents (headPred : TermId) (delta : List Key) (items : List JoinItem) (s o g : Expr)
      (ruleName ruleSet : String)
  /-- For a recursive rule: the new head triples without antecedents. -/
  | stub (headPred : TermId) (delta : List Key) (ruleName ruleSet : String)

/-- `compile_antecedent_insert_via_delta`, with the rows of the delta tables. -/
def compileAntecedentInsertViaDelta (rule : Rule) (ruleSet : String)
    (deltaTable : TermId → Option (List Key)) : Option RecordStmt := do
  let head ← rule.head
  let headPred ← head.pred?
  let delta ← deltaTable headPred
  if rule.isRecursive headPred then return .stub headPred delta rule.ruleText ruleSet
  if rule.positiveAtoms = [] then none
  let (vm, items) ← fromJoinParts 0 [] rule.positiveAtoms
  let s ← headSql vm head.s
  let o ← headSql vm head.o
  return .antecedents headPred delta items s o (headGSql vm head.g) rule.ruleText ruleSet

/-- A row of `_pg_ripple.derivations`. -/
structure Derivation where
  derivedSid : Int
  ruleName : String
  ruleSet : String
  antecedentSids : List Int
  deriving DecidableEq, Repr

/-- The columns of the aliases. -/
def keys (chosen : List RareRow) : List Key := chosen.map fun row => row.quad.key

def OnEq.holds (env : List Key) (k : Key) (cond : OnEq) : Bool :=
  cond.expr.eval env = some (cond.col.of k)

/-- The rows of an alias. -/
def itemRows (vpRare : List RareRow) (item : JoinItem) : List RareRow :=
  vpRare.filter fun row => row.quad.p = item.pred

/-- The joined body rows. -/
def bodyRows (vpRare : List RareRow) (items : List JoinItem) : List (List RareRow) :=
  ((items.map (itemRows vpRare)).sections).filter fun chosen =>
    (chosen.zip items).all fun (row, item) => item.on.all (OnEq.holds (keys chosen) row.quad.key)

/-- `vr_head`: the new triples of the predicate that are in `vp_rare`. -/
def headRows (vpRare : List RareRow) (headPred : TermId) (delta : List Key) : List RareRow :=
  delta.flatMap fun dt => vpRare.filter fun row => row.quad.p = headPred ∧ row.quad.key = dt

/-- The rows that the statement selects. -/
def RecordStmt.select (vpRare : List RareRow) : RecordStmt → List Derivation
  | .antecedents headPred delta items s o g ruleName ruleSet =>
    (bodyRows vpRare items).flatMap fun chosen =>
      ((headRows vpRare headPred delta).filter fun row =>
        s.eval (keys chosen) = some row.quad.s ∧ o.eval (keys chosen) = some row.quad.o ∧
          g.eval (keys chosen) = some row.quad.g).map fun row =>
        ⟨row.i, ruleName, ruleSet, chosen.map RareRow.i⟩
  | .stub headPred delta ruleName ruleSet =>
    (headRows vpRare headPred delta).map fun row => ⟨row.i, ruleName, ruleSet, []⟩

/-- `ON CONFLICT (derived_sid, rule_name) DO NOTHING`. -/
def insertRow (table : List Derivation) (row : Derivation) : List Derivation :=
  if table.any fun old => old.derivedSid = row.derivedSid && old.ruleName = row.ruleName then table
  else table ++ [row]

section Scan

variable {env : List Key} {ρ : Valuation} {t : Nat} {c : Col} {k : Key} {scan : Scan} {term : Term}
  {vm : VarMap} {a : Atom} {v : String} {e : Expr}

theorem varMap_scanTerm : (scanTerm t c scan term).varMap = scan.varMap.bindTerm term
    (.col t c) := by
  cases term with
  | var v =>
    rw [scanTerm, VarMap.bindTerm]
    split
    · rename_i bound
      rw [VarMap.bind, bound]
      rfl
    · rfl
  | const id => rfl
  | wildcard => rfl
  | defaultGraph => rfl

theorem varMap_scanAtom : (scanAtom t vm a).varMap = vm.bindAtom t a := by
  rw [scanAtom, varMap_scanTerm, varMap_scanTerm, varMap_scanTerm]
  rfl

/-- A map is sound after a term was bound, if it was before and a new column has its value. -/
theorem sound_bindTerm_iff : (vm.bindTerm term e).Sound env ρ ↔ vm.Sound env ρ ∧
    ∀ v, term = .var v → vm.colRef v = none → e.eval env = some (ρ v) := by
  cases term with
  | var w =>
    rw [VarMap.bindTerm]
    constructor
    · intro sound
      constructor
      · intro v e' bound
        exact sound v e' (VarMap.colRef_bind_of_some bound)
      · rintro v same fresh
        cases same
        apply sound
        rw [VarMap.colRef_bind, if_pos ⟨rfl, fresh⟩]
    · rintro ⟨sound, new⟩ v e' bound
      rw [VarMap.colRef_bind] at bound
      split at bound
      · rename_i fresh
        cases bound
        obtain ⟨rfl, none⟩ := fresh
        exact new v rfl none
      · exact sound v e' bound
  | const id => exact ⟨fun h => ⟨h, by simp⟩, fun h => h.1⟩
  | wildcard => exact ⟨fun h => ⟨h, by simp⟩, fun h => h.1⟩
  | defaultGraph => exact ⟨fun h => ⟨h, by simp⟩, fun h => h.1⟩

theorem colRef_bindTerm_eq_none :
    (vm.bindTerm term e).colRef v = none ↔ vm.colRef v = none ∧ term ≠ .var v := by
  cases term with
  | var w =>
    rw [VarMap.bindTerm, VarMap.colRef_bind]
    by_cases same : v = w
    · subst same
      cases vm.colRef v <;> simp
    · simp [same, Ne.symm same]
  | const id => exact ⟨fun h => ⟨h, by simp⟩, fun h => h.1⟩
  | wildcard => exact ⟨fun h => ⟨h, by simp⟩, fun h => h.1⟩
  | defaultGraph => exact ⟨fun h => ⟨h, by simp⟩, fun h => h.1⟩

/-- The variables and conditions of one position ask that the term accepts the column. -/
theorem scanTerm_iff (row : env[t]? = some k) :
    ((scanTerm t c scan term).varMap.Sound env ρ ∧
        ∀ cond ∈ (scanTerm t c scan term).joinConds, cond.holds env k = true) ↔
      (scan.varMap.Sound env ρ ∧ ∀ cond ∈ scan.joinConds, cond.holds env k = true) ∧
        term.Accepts ρ (c.of k) := by
  have value : (Expr.col t c).eval env = some (c.of k) := eval_col row
  have more (cond : OnEq) : (∀ x ∈ scan.joinConds ++ [cond], x.holds env k = true) ↔
      (∀ x ∈ scan.joinConds, x.holds env k = true) ∧ cond.holds env k = true := by
    simp only [List.mem_append, List.mem_singleton, or_imp, forall_and, forall_eq]
  cases term with
  | var v =>
    rw [scanTerm]
    split
    · rename_i existing bound
      rw [more, OnEq.holds, decide_eq_true_eq, Term.Accepts]
      constructor
      · rintro ⟨sound, conds, cond⟩
        refine ⟨⟨sound, conds⟩, ?_⟩
        rw [sound v existing bound] at cond
        exact Option.some.inj cond
      · rintro ⟨⟨sound, conds⟩, same⟩
        exact ⟨sound, conds, by rw [sound v existing bound, same]⟩
    · rename_i fresh
      have bind : (scan.varMap.bind v (.col t c)).Sound env ρ ↔
          scan.varMap.Sound env ρ ∧ ρ v = c.of k := by
        show (scan.varMap.bindTerm (.var v) (.col t c)).Sound env ρ ↔ _
        refine sound_bindTerm_iff.trans (and_congr_right fun _ => ?_)
        rw [value]
        constructor
        · intro new
          exact (Option.some.inj (new v rfl fresh)).symm
        · rintro same w ⟨⟩ _
          exact congrArg some same.symm
      show (scan.varMap.bind v (.col t c)).Sound env ρ ∧ _ ↔ _
      rw [bind, Term.Accepts, and_right_comm]
  | const id =>
    rw [scanTerm, more, OnEq.holds, decide_eq_true_eq, Term.Accepts, Expr.eval, Option.some_inj,
      and_assoc]
  | wildcard => exact (and_iff_left trivial).symm
  | defaultGraph => exact (and_iff_left trivial).symm

/-- The columns of an atom's alias: sound, with all conditions, if and only if the atom accepts
its row. -/
theorem scanAtom_iff (row : env[t]? = some k) :
    ((scanAtom t vm a).varMap.Sound env ρ ∧
        ∀ cond ∈ (scanAtom t vm a).joinConds, cond.holds env k = true) ↔
      vm.Sound env ρ ∧ a.s.Accepts ρ k.s ∧ a.o.Accepts ρ k.o ∧ a.g.Accepts ρ k.g := by
  rw [scanAtom, scanTerm_iff row, scanTerm_iff row, scanTerm_iff row]
  simp only [List.not_mem_nil, false_implies, implies_true, and_true, Col.of, and_assoc]

theorem colRef_bindAtom_eq_none :
    (vm.bindAtom t a).colRef v = none ↔ vm.colRef v = none ∧ ¬ a.Binds v := by
  rw [VarMap.bindAtom, colRef_bindTerm_eq_none, colRef_bindTerm_eq_none, colRef_bindTerm_eq_none,
    Atom.Binds, not_or, not_or, and_assoc, and_assoc]

end Scan

/-- A variable at its first place stays, anything else asks for nothing. -/
def firstPlace (earlier : List Term) : Term → Term
  | .var v => if .var v ∈ earlier then .wildcard else .var v
  | _ => .wildcard

/-- What the statement keeps of its first atom. -/
def loosened (a : Atom) : Atom where
  s := firstPlace [] a.s
  p := a.p
  o := firstPlace [a.s] a.o
  g := firstPlace [a.s, a.o] a.g

def loosenFirst : List Atom → List Atom
  | [] => []
  | a :: atoms => loosened a :: atoms

section First

variable {env : List Key} {ρ ρ' : Valuation} {t : Nat} {k : Key} {a : Atom} {q : Quad} {x : TermId}
  {term : Term} {earlier : List Term} {scope : GraphScope}

theorem accepts_firstPlace_iff : (firstPlace earlier term).Accepts ρ x ↔
    ∀ v, term = .var v → .var v ∉ earlier → ρ v = x := by
  cases term with
  | var v =>
    rw [firstPlace]
    constructor
    · rintro accepts w ⟨⟩ new
      rwa [if_neg new] at accepts
    · intro accepts
      split
      · exact trivial
      · rename_i new
        exact accepts v rfl new
  | const id => exact ⟨fun _ => nofun, fun _ => trivial⟩
  | wildcard => exact ⟨fun _ => nofun, fun _ => trivial⟩
  | defaultGraph => exact ⟨fun _ => nofun, fun _ => trivial⟩

/-- The map of the first atom is sound when its variables are read at their first places. -/
theorem sound_first_iff (row : env[t]? = some k) :
    (VarMap.bindAtom [] t a).Sound env ρ ↔ (loosened a).s.Accepts ρ k.s ∧
      (loosened a).o.Accepts ρ k.o ∧ (loosened a).g.Accepts ρ k.g := by
  have start : VarMap.Sound ([] : VarMap) env ρ := fun v e bound => nomatch bound
  have value (c : Col) (v : String) :
      (Expr.col t c).eval env = some (ρ v) ↔ ρ v = c.of k := by
    rw [eval_col row, Option.some_inj, eq_comm]
  have unbound (v : String) : VarMap.colRef [] v = none := rfl
  rw [VarMap.bindAtom, sound_bindTerm_iff, sound_bindTerm_iff, sound_bindTerm_iff, loosened,
    accepts_firstPlace_iff, accepts_firstPlace_iff, accepts_firstPlace_iff]
  simp only [colRef_bindTerm_eq_none, unbound, value, start, true_and, and_assoc, List.mem_cons,
    List.not_mem_nil, or_false, not_or, not_false_iff, forall_true_left, and_imp, ne_eq,
      @eq_comm Term (.var _), Col.of]

theorem accepts_of_agree (other : term.Accepts ρ' x) (agree : ∀ v, term = .var v → ρ v = ρ' v) :
    term.Accepts ρ x := by
  cases term with
  | var v => exact (agree v rfl).trans other
  | const id => exact other
  | wildcard => trivial
  | defaultGraph => trivial

theorem acceptsGraph_all_iff : term.AcceptsGraph .all ρ x ↔ term.Accepts ρ x := by
  cases term with
  | var v => exact Iff.rfl
  | const id => exact Iff.rfl
  | wildcard => exact ⟨fun _ => trivial, fun _ => nofun⟩
  | defaultGraph => exact ⟨fun _ => trivial, fun _ => nofun⟩

theorem accepts_of_acceptsGraph (accepts : term.AcceptsGraph scope ρ x) : term.Accepts ρ x := by
  cases term with
  | var v => exact accepts
  | const id => exact accepts
  | wildcard => trivial
  | defaultGraph => trivial

/-- What the first atom lost is a matter of the triple alone: if the atom itself matches under
some valuation, it does under this one. -/
theorem matches_of_loosened (kept : (loosened a).Matches .all ρ q) (other : a.Matches scope ρ' q) :
    a.Matches .all ρ q := by
  have atS (v : String) (place : a.s = .var v) : ρ v = ρ' v := by
    have value : a.s.Accepts ρ' q.s := other.s
    rw [place] at value
    rw [accepts_firstPlace_iff.mp kept.s v place List.not_mem_nil]
    exact value.symm
  have atO (v : String) (place : a.o = .var v) : ρ v = ρ' v := by
    by_cases earlier : a.s = .var v
    · exact atS v earlier
    have value : a.o.Accepts ρ' q.o := other.o
    have first : .var v ∉ [a.s] := fun mem => earlier (List.mem_singleton.mp mem).symm
    rw [place] at value
    rw [accepts_firstPlace_iff.mp kept.o v place first]
    exact value.symm
  have atG (v : String) (place : a.g = .var v) : ρ v = ρ' v := by
    by_cases earlier : .var v ∈ [a.s, a.o]
    · obtain same | same : .var v = a.s ∨ .var v = a.o := by simpa using earlier
      · exact atS v same.symm
      · exact atO v same.symm
    have value : a.g.Accepts ρ' q.g := accepts_of_acceptsGraph other.g
    rw [place] at value
    rw [accepts_firstPlace_iff.mp (acceptsGraph_all_iff.mp kept.g) v place earlier]
    exact value.symm
  exact ⟨accepts_of_agree other.s atS, kept.p, accepts_of_agree other.o atO,
    acceptsGraph_all_iff.mpr (accepts_of_agree (accepts_of_acceptsGraph other.g) atG)⟩

end First

section Join

variable {env : List Key} {ρ : Valuation} {t : Nat} {vm vm' : VarMap} {atoms : List Atom}
  {items : List JoinItem} {chosen : List RareRow} {vpRare : List RareRow} {v : String} {e : Expr}

/-- A row of an alias that satisfies its conditions. -/
def ItemRow (vpRare : List RareRow) (env : List Key) (row : RareRow) (item : JoinItem) : Prop :=
  (row ∈ vpRare ∧ row.quad.p = item.pred) ∧ ∀ cond ∈ item.on, cond.holds env row.quad.key = true

theorem mem_bodyRows_iff :
    chosen ∈ bodyRows vpRare items ↔ List.Forall₂ (ItemRow vpRare (keys chosen)) chosen items := by
  have split (env : List Key) : List.Forall₂ (ItemRow vpRare env) chosen items ↔
      List.Forall₂ (fun row item => row ∈ itemRows vpRare item) chosen items ∧
        ∀ pair ∈ chosen.zip items, ∀ cond ∈ pair.2.on, cond.holds env pair.1.quad.key = true := by
    have table (row : RareRow) (item : JoinItem) :
        row ∈ itemRows vpRare item ↔ row ∈ vpRare ∧ row.quad.p = item.pred := by
      rw [itemRows, List.mem_filter, decide_eq_true_eq]
    constructor
    · intro rows
      exact ⟨rows.imp fun row item h => (table row item).mpr h.1,
        fun pair mem => (List.forall₂_zip rows mem).2⟩
    · rintro ⟨rows, conds⟩
      rw [List.forall₂_iff_zip]
      refine ⟨rows.length_eq, fun mem => ⟨?_, conds _ mem⟩⟩
      exact (table _ _).mp (List.forall₂_zip rows mem)
  rw [bodyRows, List.mem_filter, List.mem_sections, List.forall₂_map_right_iff, split]
  simp only [List.all_eq_true]

theorem fromJoinParts_cons {a : Atom} (h : fromJoinParts t vm (a :: atoms) = some (vm', items)) :
    ∃ predId rest, a.pred? = some predId ∧
      fromJoinParts (t + 1) (scanAtom t vm a).varMap atoms = some (vm', rest) ∧
      items = ⟨predId, if t = 0 then [] else (scanAtom t vm a).joinConds⟩ :: rest := by
  simp only [fromJoinParts, Option.bind_eq_bind, Option.bind_eq_some_iff, Option.pure_def,
    Option.some.injEq, Prod.mk.injEq, Prod.exists] at h
  obtain ⟨predId, pred, vm'', rest, further, rfl, rfl⟩ := h
  exact ⟨predId, rest, pred, further, rfl⟩

theorem matches_all_iff {a : Atom} {q : Quad} : a.Matches .all ρ q ↔
    a.p.Accepts ρ q.p ∧ a.s.Accepts ρ q.s ∧ a.o.Accepts ρ q.o ∧ a.g.Accepts ρ q.g := by
  constructor
  · intro h
    exact ⟨h.p, h.s, h.o, acceptsGraph_all_iff.mp h.g⟩
  · rintro ⟨p, s, o, g⟩
    exact ⟨s, p, o, acceptsGraph_all_iff.mpr g⟩

theorem accepts_pred_iff {a : Atom} {p x : TermId} (pred : a.pred? = some p) :
    a.p.Accepts ρ x ↔ x = p := by
  rw [eq_const_of_pred pred, Term.Accepts, eq_comm]

/-- One alias: with its variables bound, a row of it matches the atom. -/
theorem itemRow_iff {a : Atom} {p : TermId} {row : RareRow} (pred : a.pred? = some p)
    (read : env[t]? = some row.quad.key) :
    ((scanAtom t vm a).varMap.Sound env ρ ∧
        ItemRow vpRare env row ⟨p, (scanAtom t vm a).joinConds⟩) ↔
      vm.Sound env ρ ∧ row ∈ vpRare ∧ a.Matches .all ρ row.quad := by
  rw [ItemRow, and_left_comm, scanAtom_iff read, matches_all_iff, accepts_pred_iff pred]
  show (_ ∧ _) ∧ vm.Sound env ρ ∧ a.s.Accepts ρ row.quad.s ∧ a.o.Accepts ρ row.quad.o ∧
    a.g.Accepts ρ row.quad.g ↔ _
  rw [and_left_comm, and_assoc]

theorem getElem?_front {front : List Key} {row : RareRow} (length : front.length = t)
    (split : env = front ++ keys (row :: chosen)) : env[t]? = some row.quad.key := by
  rw [split, ← length, List.getElem?_append_right (Nat.le_refl _), Nat.sub_self]
  rfl

/-- The `FROM` list from a later alias on says that every atom matches its row. -/
theorem fromJoinParts_iff (later : 0 < t) (h : fromJoinParts t vm atoms = some (vm', items))
    (front : List Key) (length : front.length = t) (split : env = front ++ keys chosen) :
    (vm'.Sound env ρ ∧ List.Forall₂ (ItemRow vpRare env) chosen items) ↔ vm.Sound env ρ ∧
      List.Forall₂ (fun row a => row ∈ vpRare ∧ a.Matches .all ρ row.quad) chosen atoms := by
  induction atoms generalizing t vm items front chosen with
  | nil =>
    obtain ⟨rfl, rfl⟩ : vm = vm' ∧ [] = items := by simpa [fromJoinParts] using h
    simp only [List.forall₂_nil_right_iff]
  | cons a atoms ih =>
    obtain ⟨p, rest, pred, further, rfl⟩ := fromJoinParts_cons h
    rw [if_neg (by omega)]
    cases chosen with
    | nil => simp only [List.forall₂_nil_left_iff, reduceCtorEq, and_false]
    | cons row chosen =>
      have read := getElem?_front length split
      have others := ih (Nat.succ_pos t) further (front ++ [row.quad.key])
        (by rw [List.length_append, length]; rfl) (by rw [split, List.append_assoc]; rfl)
      rw [List.forall₂_cons, List.forall₂_cons, and_left_comm, others, and_left_comm, ← and_assoc,
        itemRow_iff pred read, and_assoc]

/-- The whole `FROM` list: the first atom is loosened. -/
theorem fromJoinParts_zero_iff (h : fromJoinParts 0 [] atoms = some (vm', items))
    (split : env = keys chosen) :
    (vm'.Sound env ρ ∧ List.Forall₂ (ItemRow vpRare env) chosen items) ↔
      List.Forall₂ (fun row a => row ∈ vpRare ∧ a.Matches .all ρ row.quad) chosen
        (loosenFirst atoms) := by
  cases atoms with
  | nil =>
    obtain ⟨rfl, rfl⟩ : [] = vm' ∧ [] = items := by simpa [fromJoinParts] using h
    rw [loosenFirst, List.forall₂_nil_right_iff, List.forall₂_nil_right_iff]
    exact and_iff_right fun v e bound => nomatch bound
  | cons a atoms =>
    obtain ⟨p, rest, pred, further, rfl⟩ := fromJoinParts_cons h
    rw [if_pos rfl, loosenFirst]
    cases chosen with
    | nil => simp only [List.forall₂_nil_left_iff, reduceCtorEq, and_false]
    | cons row chosen =>
      have empty : ([] : List Key).length = 0 := rfl
      have read : env[0]? = some row.quad.key := getElem?_front empty split
      have pred' : (loosened a).pred? = some p := pred
      rw [List.forall₂_cons, List.forall₂_cons, and_left_comm,
        fromJoinParts_iff Nat.one_pos further [row.quad.key] rfl split, varMap_scanAtom,
        sound_first_iff read, matches_all_iff, accepts_pred_iff pred']
      constructor
      · rintro ⟨⟨⟨stored, pred⟩, _⟩, accepts, rest⟩
        exact ⟨⟨stored, pred, accepts⟩, rest⟩
      · rintro ⟨⟨stored, pred, accepts⟩, rest⟩
        exact ⟨⟨⟨stored, pred⟩, fun cond mem => nomatch mem⟩, accepts, rest⟩

theorem colRef_eq_none_iff (h : fromJoinParts t vm atoms = some (vm', items)) :
    vm'.colRef v = none ↔ vm.colRef v = none ∧ ¬ ∃ a ∈ atoms, a.Binds v := by
  induction atoms generalizing t vm items with
  | nil =>
    obtain ⟨rfl, rfl⟩ : vm = vm' ∧ [] = items := by simpa [fromJoinParts] using h
    simp
  | cons a atoms ih =>
    obtain ⟨p, rest, pred, further, rfl⟩ := fromJoinParts_cons h
    rw [ih further, varMap_scanAtom, colRef_bindAtom_eq_none, List.exists_mem_cons_iff, not_or,
      and_assoc]

/-- The expressions of the map are columns of aliases that there are. -/
def Within (vm : VarMap) (t : Nat) : Prop := ∀ v e, vm.colRef v = some e →
    ∃ j < t, ∃ c, e = .col j c

theorem Within.bindTerm {term : Term} {c : Col} (within : Within vm (t + 1)) :
    Within (vm.bindTerm term (.col t c)) (t + 1) := by
  intro v e bound
  cases term with
  | var w =>
    rw [VarMap.bindTerm, VarMap.colRef_bind] at bound
    split at bound
    · exact ⟨t, Nat.lt_succ_self t, c, (Option.some.inj bound).symm⟩
    · exact within v e bound
  | const id => exact within v e bound
  | wildcard => exact within v e bound
  | defaultGraph => exact within v e bound

theorem Within.fromJoinParts (within : Within vm t)
    (h : fromJoinParts t vm atoms = some (vm', items)) : Within vm' (t + atoms.length) := by
  induction atoms generalizing t vm items with
  | nil =>
    obtain ⟨rfl, rfl⟩ : vm = vm' ∧ [] = items := by simpa [Derivations.fromJoinParts] using h
    exact within
  | cons a atoms ih =>
    obtain ⟨p, rest, pred, further, rfl⟩ := fromJoinParts_cons h
    have wider : Within vm (t + 1) := by
      intro v e bound
      obtain ⟨j, lt, known⟩ := within v e bound
      exact ⟨j, by omega, known⟩
    rw [varMap_scanAtom] at further
    have := ih wider.bindTerm.bindTerm.bindTerm further
    rwa [List.length_cons, Nat.add_comm atoms.length, ← Nat.add_assoc]

/-- The values that one row per alias gives to the variables. -/
def valuation (vm : VarMap) (env : List Key) : Valuation := fun v =>
  ((vm.colRef v).bind (Expr.eval env)).getD 0

theorem valuation_of_unbound (unbound : vm.colRef v = none) : valuation vm env v = 0 := by
  rw [valuation, unbound]
  rfl

theorem sound_valuation (within : Within vm env.length) : vm.Sound env (valuation vm env) := by
  intro v e bound
  obtain ⟨j, lt, c, rfl⟩ := within v e bound
  rw [valuation, bound, Option.bind_some, eval_col (List.getElem?_eq_getElem lt)]
  rfl

end Join

section Head

variable {env : List Key} {ρ : Valuation} {vm : VarMap} {term : Term} {e : Expr} {x : TermId}

theorem eval_headSql_iff (sound : vm.Sound env ρ) (h : headSql vm term = some e) :
    e.eval env = some x ↔ term.value ρ = some x := by
  cases term with
  | var v => rw [sound v e h, Term.value]
  | const id =>
    cases h
    exact Iff.rfl
  | wildcard => cases h
  | defaultGraph => cases h

theorem eval_headGSql_iff (sound : vm.Sound env ρ)
    (unbound : ∀ v, term = .var v → vm.colRef v = none → ρ v = 0) :
    (headGSql vm term).eval env = some x ↔ (term.value ρ).getD 0 = x := by
  cases term with
  | var v =>
    rw [headGSql, Term.value, Option.getD_some]
    cases bound : vm.colRef v with
    | none =>
      rw [unbound v rfl bound]
      exact Option.some_inj
    | some e =>
      rw [Option.getD_some, sound v e bound]
      exact Option.some_inj
  | const id => exact Option.some_inj
  | wildcard => exact Option.some_inj
  | defaultGraph => exact Option.some_inj

end Head

/-- One triple for each atom of the body and one for the head, all stored, under one
substitution. -/
structure Fires (scope : GraphScope) (rule : Rule) (vpRare : List RareRow) (ρ : Valuation)
    (chosen : List RareRow) (row : RareRow) : Prop where
  body : List.Forall₂ (fun b a => b ∈ vpRare ∧ a.Matches scope ρ b.quad) chosen rule.positiveAtoms
  head : ∃ h, rule.head = some h ∧ h.Concludes ρ row.quad
  stored : row ∈ vpRare

/-- The derivation of an instance of the rule. -/
def Real (scope : GraphScope) (rule : Rule) (vpRare : List RareRow) (d : Derivation) : Prop :=
  ∃ ρ chosen row, Fires scope rule vpRare ρ chosen row ∧ d.derivedSid = row.i ∧
    d.antecedentSids = chosen.map RareRow.i

/-- Whatever `derivations` holds and in whichever order the rows arrive, what the statement adds
are real derivations. -/
def RecordsReal (scope : GraphScope) (rule : Rule) (ruleSet : String) (vpRare : List RareRow)
    (deltaTable : TermId → Option (List Key)) : Prop :=
  ∀ stmt, compileAntecedentInsertViaDelta rule ruleSet deltaTable = some stmt →
    ∀ table order added : List Derivation, order.Perm (stmt.select vpRare) →
      order.foldl insertRow table = table ++ added → ∀ d ∈ added, Real scope rule vpRare d

/-- The triples that the statement joins: the first atom is loosened, and the head triple is a
new one. -/
structure Joined (rule : Rule) (vpRare : List RareRow) (deltaTable : TermId → Option (List Key))
    (ρ : Valuation) (chosen : List RareRow) (row : RareRow) : Prop where
  body : List.Forall₂ (fun b a => b ∈ vpRare ∧ a.Matches .all ρ b.quad) chosen
    (loosenFirst rule.positiveAtoms)
  head : ∃ h, rule.head = some h ∧ h.Concludes ρ row.quad ∧ rule.Determines h.s ∧
    rule.Determines h.o ∧ ∀ v, h.g = .var v → rule.Determines h.g ∨ ρ v = 0
  stored : row ∈ vpRare
  new : ∃ delta, deltaTable row.quad.p = some delta ∧ row.quad.key ∈ delta

/-- What the statement does not check of the triples that it joins. -/
structure Unchecked (scope : GraphScope) (rule : Rule) (ρ : Valuation) (chosen : List RareRow) :
    Prop where
  /-- The constants and the repeated variables of the first atom. -/
  first : ∀ a ∈ rule.positiveAtoms.head?, ∀ b ∈ chosen.head?, a.Matches .all ρ b.quad
  /-- The graph of an atom without a graph term, where `rule_graph_scope` is `default`. -/
  graphs : scope = .default → ∀ pair ∈ chosen.zip rule.positiveAtoms,
    pair.2.g = .wildcard ∨ pair.2.g = .defaultGraph → pair.1.quad.g = 0

section Compile

variable {rule : Rule} {ruleSet : String} {deltaTable : TermId → Option (List Key)}
  {stmt : RecordStmt} {vm vm' : VarMap} {t : Nat} {atoms : List Atom} {items : List JoinItem}
  {term : Term} {e : Expr}

theorem exists_fromJoinParts (const : ∀ a ∈ atoms, a.pred?.isSome) (t : Nat) (vm : VarMap) :
    ∃ parts, fromJoinParts t vm atoms = some parts := by
  induction atoms generalizing t vm with
  | nil => exact ⟨(vm, []), rfl⟩
  | cons a atoms ih =>
    obtain ⟨p, pred⟩ := Option.isSome_iff_exists.mp (const a List.mem_cons_self)
    obtain ⟨parts, rest⟩ := ih (fun b mem => const b (List.mem_cons_of_mem a mem)) (t + 1)
      (scanAtom t vm a).varMap
    simp [fromJoinParts, pred, rest]

theorem length_fromJoinParts (h : fromJoinParts t vm atoms = some (vm', items)) :
    items.length = atoms.length := by
  induction atoms generalizing t vm items with
  | nil =>
    obtain ⟨rfl, rfl⟩ : vm = vm' ∧ [] = items := by simpa [fromJoinParts] using h
    rfl
  | cons a atoms ih =>
    obtain ⟨p, rest, pred, further, rfl⟩ := fromJoinParts_cons h
    rw [List.length_cons, List.length_cons, ih further]

/-- The variables of the joined body are those that the rule determines. -/
theorem isSome_headSql_iff (h : fromJoinParts 0 [] rule.positiveAtoms = some (vm, items)) :
    (headSql vm term).isSome ↔ rule.Determines term := by
  cases term with
  | var v =>
    rw [headSql, Rule.Determines, ← not_iff_not, Option.not_isSome_iff_eq_none,
      colRef_eq_none_iff h]
    exact and_iff_right rfl
  | const id => exact iff_of_true rfl trivial
  | wildcard => exact iff_of_false Bool.false_ne_true not_false
  | defaultGraph => exact iff_of_false Bool.false_ne_true not_false

/-- For a rule that is not recursive, the statement is the join of the body. -/
theorem compile_eq_some_iff (notRecursive : ∀ p, rule.headPred = some p →
    rule.isRecursive p = false) :
    compileAntecedentInsertViaDelta rule ruleSet deltaTable = some stmt ↔
      ∃ head p delta vm items s o, rule.head = some head ∧ head.pred? = some p ∧
        deltaTable p = some delta ∧ rule.positiveAtoms ≠ [] ∧
        fromJoinParts 0 [] rule.positiveAtoms = some (vm, items) ∧ headSql vm head.s = some s ∧
        headSql vm head.o = some o ∧
        stmt = .antecedents p delta items s o (headGSql vm head.g) rule.ruleText ruleSet := by
  rw [compileAntecedentInsertViaDelta]
  constructor
  · intro h
    simp only [Option.bind_eq_bind, Option.bind_eq_some_iff, Option.pure_def] at h
    obtain ⟨head, isHead, p, pred, delta, table, h⟩ := h
    rw [notRecursive p (by rw [Rule.headPred, isHead]; exact pred), if_neg Bool.false_ne_true] at h
    split at h
    · cases h
    · rename_i nonempty
      simp only [Option.bind_eq_some_iff, Option.some.injEq, Prod.exists] at h
      obtain ⟨vm, items, joined, s, isS, o, isO, rfl⟩ := h
      exact ⟨head, p, delta, vm, items, s, o, isHead, pred, table, nonempty, joined, isS, isO, rfl⟩
  · rintro ⟨head, p, delta, vm, items, s, o, isHead, pred, table, nonempty, joined, isS, isO, rfl⟩
    have plain := notRecursive p (by rw [Rule.headPred, isHead]; exact pred)
    simp [isHead, pred, table, plain, nonempty, joined, isS, isO]

/-- The selected rows are the derivations of the joined triples. -/
theorem mem_select_iff {vpRare : List RareRow} {head : Atom} {p : TermId} {delta : List Key}
    {s o : Expr} {d : Derivation} (isHead : rule.head = some head) (pred : head.pred? = some p)
    (table : deltaTable p = some delta)
    (joined : fromJoinParts 0 [] rule.positiveAtoms = some (vm, items))
    (isS : headSql vm head.s = some s) (isO : headSql vm head.o = some o) :
    d ∈ (RecordStmt.antecedents p delta items s o (headGSql vm head.g) rule.ruleText
        ruleSet).select vpRare ↔
      ∃ ρ chosen row, Joined rule vpRare deltaTable ρ chosen row ∧
        d = ⟨row.i, rule.ruleText, ruleSet, chosen.map RareRow.i⟩ := by
  have determines (term : Term) : (headSql vm term).isSome ↔ rule.Determines term :=
    isSome_headSql_iff joined
  have constP : head.p = .const p := eq_const_of_pred pred
  simp only [RecordStmt.select, List.mem_flatMap, List.mem_map, List.mem_filter, headRows,
    decide_eq_true_eq, mem_bodyRows_iff]
  constructor
  · rintro ⟨chosen, rows, row, ⟨⟨new, inDelta, stored, samePred, rfl⟩, evalS, evalO, evalG⟩, rfl⟩
    have within : Within vm (keys chosen).length := by
      have start : Within [] 0 := fun v e bound => nomatch bound
      rw [keys, List.length_map, rows.length_eq, length_fromJoinParts joined, ← Nat.zero_add
        rule.positiveAtoms.length]
      exact start.fromJoinParts joined
    have sound := sound_valuation within
    refine ⟨valuation vm (keys chosen), chosen, row, ⟨?_, ?_, stored, delta, ?_, inDelta⟩, rfl⟩
    · exact (fromJoinParts_zero_iff joined rfl).mp ⟨sound, rows⟩
    · refine ⟨head, isHead, ⟨?_, ?_, ?_, ?_⟩, ?_, ?_, ?_⟩
      · exact (eval_headSql_iff sound isS).mp evalS
      · rw [constP, samePred]
        rfl
      · exact (eval_headSql_iff sound isO).mp evalO
      · exact (eval_headGSql_iff sound fun v _ unbound => valuation_of_unbound unbound).mp evalG
      · exact (determines head.s).mp (by rw [isS]; rfl)
      · exact (determines head.o).mp (by rw [isO]; rfl)
      · intro v place
        rw [← determines, place, headSql]
        cases bound : vm.colRef v with
        | none => exact .inr (valuation_of_unbound bound)
        | some e => exact .inl rfl
    · rw [samePred, table]
  · rintro ⟨ρ, chosen, row, h, rfl⟩
    obtain ⟨head', isHead', concludes, -, -, graph⟩ := h.head
    obtain rfl : head = head' := Option.some.inj (isHead.symm.trans isHead')
    obtain ⟨sound, rows⟩ := (fromJoinParts_zero_iff joined rfl).mpr h.body
    have samePred : row.quad.p = p := by
      have value := concludes.p
      rw [constP] at value
      exact (Option.some.inj value).symm
    have inDelta : row.quad.key ∈ delta := by
      obtain ⟨delta', table', mem⟩ := h.new
      rw [samePred, table] at table'
      rwa [Option.some.inj table']
    have unbound (v : String) (place : head.g = .var v) (none : vm.colRef v = none) : ρ v = 0 := by
      refine (graph v place).resolve_left fun bound => ?_
      rw [← determines, place, headSql, none] at bound
      cases bound
    exact ⟨chosen, rows, row, ⟨⟨row.quad.key, inDelta, h.stored, samePred, rfl⟩,
      (eval_headSql_iff sound isS).mpr concludes.s, (eval_headSql_iff sound isO).mpr concludes.o,
      (eval_headGSql_iff sound unbound).mpr concludes.g⟩, rfl⟩

end Compile

section Insert

variable {table order added : List Derivation} {d : Derivation}

/-- An insert only appends rows that it was given. -/
theorem exists_foldl_insertRow (table order : List Derivation) :
    ∃ added, order.foldl insertRow table = table ++ added ∧ added ⊆ order := by
  induction order generalizing table with
  | nil => exact ⟨[], (List.append_nil table).symm, List.Subset.refl []⟩
  | cons d order ih =>
    obtain ⟨added, folded, subset⟩ := ih (insertRow table d)
    rw [List.foldl_cons, folded, insertRow]
    split
    · exact ⟨added, rfl, List.subset_cons_of_subset d subset⟩
    · exact ⟨d :: added, List.append_assoc table [d] added, List.cons_subset_cons d subset⟩

/-- Into an empty table the first row goes. -/
theorem mem_foldl_insertRow_cons : ∃ added, (d :: order).foldl insertRow [] =
    [] ++ added ∧ d ∈ added := by
  obtain ⟨added, folded, -⟩ := exists_foldl_insertRow [d] order
  exact ⟨d :: added, folded, List.mem_cons_self⟩

end Insert

section Main

variable {scope : GraphScope} {rule : Rule} {ruleSet : String} {vpRare : UniqueTable RareRow.i}
  {deltaTable : TermId → Option (List Key)} {ρ : Valuation} {chosen : List RareRow} {row : RareRow}

theorem matches_scope {a : Atom} {q : Quad} (kept : a.Matches .all ρ q)
    (graph : scope = .default → a.g = .wildcard ∨ a.g = .defaultGraph → q.g = 0) :
    a.Matches scope ρ q := by
  refine ⟨kept.s, kept.p, kept.o, ?_⟩
  have accepts := kept.g
  cases term : a.g with
  | var v => rwa [term] at accepts
  | const id => rwa [term] at accepts
  | wildcard => exact fun isDefault => graph isDefault (.inl term)
  | defaultGraph => exact fun isDefault => graph isDefault (.inr term)

/-- What the statement joins is an instance once the unchecked conditions hold. -/
theorem Joined.fires {vpRare : List RareRow} (joined : Joined rule vpRare deltaTable ρ chosen row)
    (unchecked : Unchecked scope rule ρ chosen) : Fires scope rule vpRare ρ chosen row := by
  obtain ⟨h, isHead, concludes, -⟩ := joined.head
  refine ⟨?_, ⟨h, isHead, concludes⟩, joined.stored⟩
  have all : List.Forall₂ (fun b a => b ∈ vpRare ∧ a.Matches .all ρ b.quad) chosen
      rule.positiveAtoms := by
    have body := joined.body
    have first := unchecked.first
    cases atoms : rule.positiveAtoms with
    | nil => rwa [atoms] at body
    | cons a rest =>
      rw [atoms, loosenFirst] at body
      rw [atoms] at first
      cases chosen with
      | nil => cases body
      | cons b chosen =>
        rw [List.forall₂_cons] at body
        exact .cons ⟨body.1.1, first a rfl b rfl⟩ body.2
  rw [List.forall₂_iff_zip]
  refine ⟨all.length_eq, fun mem => ?_⟩
  obtain ⟨stored, kept⟩ := List.forall₂_zip all mem
  exact ⟨stored, matches_scope kept fun isDefault => unchecked.graphs isDefault _ mem⟩

/-- If the ids are those of an instance, the unchecked conditions hold. -/
theorem Joined.unchecked (joined : Joined rule vpRare.rows deltaTable ρ chosen row)
    (real : Real scope rule vpRare.rows ⟨row.i, rule.ruleText, ruleSet, chosen.map RareRow.i⟩) :
    Unchecked scope rule ρ chosen := by
  obtain ⟨ρ', chosen', row', fires, -, ids⟩ := real
  have stored {l : List RareRow} {atoms : List Atom} {m : RareRow → Atom → Prop}
      (rows : List.Forall₂ (fun b a => b ∈ vpRare.rows ∧ m b a) l atoms) :
      ∀ b ∈ l, b ∈ vpRare.rows := by
    induction rows with
    | nil => exact fun b mem => nomatch mem
    | cons here _ ih => exact List.forall_mem_cons.mpr ⟨here.1, ih⟩
  obtain rfl : chosen = chosen' :=
    vpRare.eq_of_map_key_eq (stored joined.body) (stored fires.body) ids
  have body := joined.body
  have instances := fires.body
  refine ⟨?_, ?_⟩
  · intro a isFirst b isChosen
    cases atoms : rule.positiveAtoms with
    | nil =>
      rw [atoms] at isFirst
      cases isFirst
    | cons a' rest =>
      cases chosen with
      | nil => cases isChosen
      | cons b' chosen =>
        rw [atoms] at isFirst body instances
        cases isFirst
        cases isChosen
        rw [loosenFirst, List.forall₂_cons] at body
        rw [List.forall₂_cons] at instances
        exact matches_of_loosened body.1.2 instances.1.2
  · rintro rfl pair mem noGraph
    have accepts := (List.forall₂_zip instances mem).2.g
    obtain term | term := noGraph
    · rw [term] at accepts
      exact accepts rfl
    · rw [term] at accepts
      exact accepts rfl

/-- The recorded proofs of a rule are real if and only if the triples that its statement joins
always pass what the statement does not check. -/
theorem recordsReal_iff (const : rule.ConstPreds)
    (notRecursive : ∀ p, rule.headPred = some p → rule.isRecursive p = false) :
    RecordsReal scope rule ruleSet vpRare.rows deltaTable ↔
      ∀ ρ chosen row, Joined rule vpRare.rows deltaTable ρ chosen row →
        Unchecked scope rule ρ chosen := by
  constructor
  · intro real ρ chosen row joined
    by_cases nonempty : rule.positiveAtoms = []
    · refine ⟨?_, ?_⟩
      · intro a isFirst
        rw [nonempty] at isFirst
        cases isFirst
      · intro _ pair mem
        rw [nonempty, List.zip_nil_right] at mem
        cases mem
    obtain ⟨head, isHead, concludes, atS, atO, graph⟩ := joined.head
    obtain ⟨delta, table, inDelta⟩ := joined.new
    have pred : head.pred? = some row.quad.p := by
      obtain ⟨p, isPred⟩ := Option.isSome_iff_exists.mp const.1
      rw [Rule.headPred, isHead, Option.bind_some] at isPred
      have value := concludes.p
      rw [eq_const_of_pred isPred] at value
      exact isPred.trans value
    have constAtoms : ∀ a ∈ rule.positiveAtoms, a.pred?.isSome := fun a mem =>
      const.2 _ (Rule.mem_positiveAtoms.mp mem)
    obtain ⟨⟨vm, items⟩, parts⟩ := exists_fromJoinParts constAtoms 0 []
    obtain ⟨s, isS⟩ := Option.isSome_iff_exists.mp ((isSome_headSql_iff parts).mpr atS)
    obtain ⟨o, isO⟩ := Option.isSome_iff_exists.mp ((isSome_headSql_iff parts).mpr atO)
    let stmt : RecordStmt :=
      .antecedents row.quad.p delta items s o (headGSql vm head.g) rule.ruleText ruleSet
    have compiled : compileAntecedentInsertViaDelta rule ruleSet deltaTable = some stmt :=
      (compile_eq_some_iff notRecursive).mpr ⟨head, row.quad.p, delta, vm, items, s, o,
        isHead, pred,
        table, nonempty, parts, isS, isO, rfl⟩
    have selected : ⟨row.i, rule.ruleText, ruleSet, chosen.map RareRow.i⟩ ∈
        stmt.select vpRare.rows :=
      (mem_select_iff isHead pred table parts isS isO).mpr ⟨ρ, chosen, row, joined, rfl⟩
    obtain ⟨added, inserted, isAdded⟩ := mem_foldl_insertRow_cons
    apply joined.unchecked
    exact real stmt compiled [] _ added (List.perm_cons_erase selected).symm inserted _ isAdded
  · intro unchecked stmt compiled table order added perm inserted d isAdded
    obtain ⟨head, p, delta, vm, items, s, o, isHead, pred, hasTable, -, parts, isS, isO, rfl⟩ :=
      (compile_eq_some_iff notRecursive).mp compiled
    obtain ⟨added', inserted', subset⟩ := exists_foldl_insertRow table order
    obtain rfl : added = added' := List.append_cancel_left (inserted.symm.trans inserted')
    have selected := perm.subset (subset isAdded)
    rw [mem_select_iff isHead pred hasTable parts isS isO] at selected
    obtain ⟨ρ, chosen, row, joined, rfl⟩ := selected
    exact ⟨ρ, chosen, row, joined.fires (unchecked ρ chosen row joined), rfl, rfl⟩

end Main

section Example

/-- `?x <11> <1> :- ?x <21> <102>`. -/
def constantRule : Rule where
  head := some ⟨.var "x", .const 11, .const 1, .defaultGraph⟩
  body := [.positive ⟨.var "x", .const 21, .const 102, .defaultGraph⟩]
  ruleText := "?x <11> <1> :- ?x <21> <102> ."

/-- A triple with another object, the one that fires the rule, and the derived one. -/
def exampleRows : UniqueTable RareRow.i where
  rows := [⟨⟨101, 21, 103, 0⟩, 1, 0⟩, ⟨⟨101, 21, 102, 0⟩, 2, 0⟩, ⟨⟨101, 11, 1, 0⟩, 3, 1⟩]
  unique := by decide

def exampleDelta (p : TermId) : Option (List Key) := if p = 11 then some [⟨101, 1, 0⟩] else none

/-- The derivation that is recorded has the triple with the other object as its antecedent. -/
theorem not_recordsReal_constantRule :
    ¬ RecordsReal .all constantRule "custom" exampleRows.rows exampleDelta := by
  intro real
  let recorded : Derivation := ⟨3, constantRule.ruleText, "custom", [1]⟩
  let stmt : RecordStmt := .antecedents 11 [⟨101, 1, 0⟩] [⟨21, []⟩] (.col 0 .s) (.const 1)
    (.const 0)
    constantRule.ruleText "custom"
  have compiled : compileAntecedentInsertViaDelta constantRule "custom" exampleDelta = some stmt :=
      rfl
  have inserted : (stmt.select exampleRows.rows).foldl insertRow [] = [] ++ [recorded] := by decide
  obtain ⟨ρ, chosen, row, fires, -, ids⟩ :=
    real stmt compiled [] _ [recorded] (List.Perm.refl _) inserted recorded List.mem_cons_self
  obtain ⟨b, rest, ⟨stored, isMatch⟩, -, rfl⟩ := List.forall₂_cons_right_iff.mp fires.body
  have sid : 1 = b.i := (List.cons.inj ids).1
  have object : 102 = b.quad.o := isMatch.o
  have none : ∀ b ∈ exampleRows.rows, 1 = b.i → 102 ≠ b.quad.o := by decide
  exact none b stored sid object

/-- `?x <11> <1> :- ?x <21> ?y`. -/
def variableRule : Rule where
  head := some ⟨.var "x", .const 11, .const 1, .defaultGraph⟩
  body := [.positive ⟨.var "x", .const 21, .var "y", .defaultGraph⟩]
  ruleText := "?x <11> <1> :- ?x <21> ?y ."

/-- With a variable in place of the constant the recorded proofs are real. -/
theorem recordsReal_variableRule :
    RecordsReal .all variableRule "custom" exampleRows.rows exampleDelta := by
  apply (recordsReal_iff ⟨rfl, by simp [variableRule, Atom.pred?]⟩ (by decide)).mpr
  intro ρ chosen row joined
  refine ⟨?_, by simp⟩
  rintro a ⟨⟩ b isChosen
  obtain ⟨b', rest, ⟨-, kept⟩, -, rfl⟩ := List.forall₂_cons_right_iff.mp joined.body
  obtain rfl : b' = b := Option.some.inj isChosen
  exact ⟨kept.s, kept.p, kept.o, by simp [Term.AcceptsGraph]⟩

end Example

end Derivations

end PgRipple.Datalog
