import PgRipple.Sparql.BgpCorrect
import Mathlib.Data.List.Induction

/-!
# Quoted triples in basic graph patterns

A quoted triple without variables and blank nodes has an id, if the dictionary has a row
for it. Any other becomes a condition on the rows of the dictionary, and each variable in
it is read off the row. A quoted triple inside of such a quoted triple matches nothing.

The first place at which a name occurs binds it. A later place outside of quotes adds an
equation; a later place inside of quotes adds nothing. And a blank node has one name inside
of quotes and another outside.
-/

namespace PgRipple.Sparql

open Storage

/-- The term stands for the id; a quoted triple stands for the id of its row. -/
def TermPattern.Denotes (env : Env) (db : Db) (μ : Slot → TermId) : TermPattern → TermId → Prop
  | .triple s p o, id =>
    ∃ r ∈ db.quoted, r.id = id ∧ s.Denotes env db μ r.qtS ∧ p.denote env μ = some r.qtP ∧
      o.Denotes env db μ r.qtO
  | t, id => t.denote env μ = some id

/-- The rows of quoted triples have different ids, and the lookup finds them. -/
structure QuotedRight (env : Env) (db : Db) : Prop where
  unique : ∀ r ∈ db.quoted, ∀ r' ∈ db.quoted, r.id = r'.id → r = r'
  lookup : ∀ s p o id, env.lookupQuotedTriple s p o = some id ↔
    (⟨id, s, p, o⟩ : QuotedRow) ∈ db.quoted

/-- A variable or a blank node occurs in the term, at any depth. -/
def TermPattern.isOpen : TermPattern → Bool
  | .var _ | .blankNode _ => true
  | .namedNode _ | .literal _ => false
  | .triple s p o => s.isOpen || p.slot?.isSome || o.isOpen

def TermPattern.isTriple : TermPattern → Bool
  | .triple _ _ _ => true
  | _ => false

/-- A quoted triple with variables or blank nodes has no quoted triple inside. -/
def TermPattern.Flat (t : TermPattern) : Prop :=
  ∀ s p o, t = .triple s p o → t.isOpen = true → s.isTriple = false ∧ o.isTriple = false

def TriplePattern.Flat (tp : TriplePattern) : Prop := tp.subject.Flat ∧ tp.object.Flat

section Meaning

variable {env : Env} {db : Db} {μ : Slot → TermId} {t : TermPattern} {id : TermId}

theorem denotes_of_not_isTriple (plain : t.isTriple = false) :
    t.Denotes env db μ id ↔ t.denote env μ = some id := by
  cases t with
  | triple s p o => cases plain
  | _ => exact Iff.rfl

theorem groundTermId_triple {s o : TermPattern} {p : NamedNodePattern} :
    groundTermId env (.triple s p o) = some id ↔
      ∃ s' p' o', groundTermId env s = some s' ∧
        (∃ iri, p = .namedNode iri ∧ env.lookupIri iri = some p') ∧
        groundTermId env o = some o' ∧ env.lookupQuotedTriple s' p' o' = some id := by
  rw [groundTermId]
  cases p with
  | namedNode iri =>
    simp only [Option.bind_eq_bind, Option.bind_eq_some_iff]
    constructor
    · rintro ⟨s', hs, p', hp, o', ho, found⟩
      exact ⟨s', p', o', hs, ⟨iri, rfl, hp⟩, ho, found⟩
    · rintro ⟨s', p', o', hs, ⟨_, same, hp⟩, ho, found⟩
      cases same
      exact ⟨s', hs, p', hp, o', ho, found⟩
  | var v =>
    constructor
    · intro known
      obtain ⟨s', -, never⟩ := Option.bind_eq_some_iff.mp known
      cases never
    · rintro ⟨s', p', o', -, ⟨_, same, -⟩, -⟩
      cases same

/-- Only terms without variables and blank nodes have an id of their own. -/
theorem isOpen_of_groundTermId (known : groundTermId env t = some id) : t.isOpen = false := by
  induction t generalizing id with
  | var v => cases known
  | blankNode label => cases known
  | namedNode iri => rfl
  | literal lit => rfl
  | triple s p o ihs iho =>
    obtain ⟨s', p', o', hs, ⟨iri, rfl, -⟩, ho, -⟩ := groundTermId_triple.mp known
    rw [TermPattern.isOpen, ihs hs, iho ho]
    rfl

/-- Such a term stands for this id. -/
theorem denotes_of_not_isOpen (right : QuotedRight env db) (ground : t.isOpen = false) :
    t.Denotes env db μ id ↔ groundTermId env t = some id := by
  induction t generalizing id with
  | var v => cases ground
  | blankNode label => cases ground
  | namedNode iri => exact Iff.rfl
  | literal lit => exact Iff.rfl
  | triple s p o ihs iho =>
    rw [TermPattern.isOpen, Bool.or_eq_false_iff, Bool.or_eq_false_iff] at ground
    obtain ⟨⟨groundS, groundP⟩, groundO⟩ := ground
    cases p with
    | var v => cases groundP
    | namedNode iri =>
      rw [groundTermId_triple, TermPattern.Denotes]
      simp only [ihs groundS, iho groundO]
      constructor
      · rintro ⟨r, hr, rfl, hs, hp, ho⟩
        exact ⟨r.qtS, r.qtP, r.qtO, hs, ⟨iri, rfl, hp⟩, ho, (right.lookup _ _ _ _).mpr hr⟩
      · rintro ⟨s', p', o', hs, ⟨iri', same, hp⟩, ho, found⟩
        cases same
        exact ⟨_, (right.lookup _ _ _ _).mp found, rfl, hs, hp, ho⟩

end Meaning

/-- A variable or a blank node at some place, inside of quotes or outside. -/
structure Mention where
  quoted : Bool
  slot : Slot
  deriving DecidableEq

/-- The name under which it is looked up. -/
def Mention.name (env : Env) (m : Mention) : String :=
  match m.quoted, m.slot with
  | true, .blank label => env.sanitizeSqlIdent ("_bn_" ++ "_:" ++ label)
  | _, y => y.name env

/-- What `bind_term` does at one place. -/
inductive BindStep where
  | check (c : Cond)
  | mention (m : Mention) (e : ColExpr)

/-- Only places outside of quotes are compared with the column that is there already. -/
def BindStep.run (env : Env) (b : Binds) : BindStep → Binds
  | .check c => b.require c
  | .mention m e =>
    match b.bindings.lookup (m.name env) with
    | some existing => if m.quoted then b else b.require (.eq e existing)
    | none => { b with bindings := b.bindings ++ [(m.name env, e)] }

def componentSteps (qt : QuotedRow → TermId) (e : ColExpr) (slot? : Option Slot) : List BindStep :=
  slot?.toList.map fun y => .mention ⟨true, y⟩ (quotedColumn qt e)

def termSteps (env : Env) (n : Alias) (c : Col) (t : TermPattern) : List BindStep :=
  match t with
  | .var v => [.mention ⟨false, .var v⟩ (column n c)]
  | .blankNode label => [.mention ⟨false, .blank label⟩ (column n c)]
  | .namedNode iri => [.check ((env.lookupIri iri).elim .never (.eqId (column n c)))]
  | .literal lit => [.check (.eqId (column n c) (env.literalId lit))]
  | .triple s p o =>
    match groundTermId env (.triple s p o) with
    | some id => [.check (.eqId (column n c) id)]
    | none =>
      .check (.inQuoted (column n c) (processQtComponent env s) (processQtPredicate env p)
          (processQtComponent env o)) ::
        (componentSteps QuotedRow.qtS (column n c) s.slot? ++
          componentSteps QuotedRow.qtP (column n c) p.slot? ++
          componentSteps QuotedRow.qtO (column n c) o.slot?)

def patternSteps (env : Env) (x : Alias × TriplePattern) : List BindStep :=
  x.2.predicate.slot?.toList.map (fun y => .mention ⟨false, y⟩ (column x.1 .p)) ++
    termSteps env x.1 .s x.2.subject ++ termSteps env x.1 .o x.2.object

section Steps

variable {env : Env} {b : Binds} {qt : QuotedRow → TermId} {e : ColExpr} {n n' : Nat} {m : Alias}
  {c : Col} {t : TermPattern} {graphFilter : Option TermId} {frag frag' : Fragment}

theorem bindName_eq (y : Slot) :
    b.bindName (y.name env) e = BindStep.run env b (.mention ⟨false, y⟩ e) := by
  have same : Mention.name env ⟨false, y⟩ = y.name env := rfl
  rw [Binds.bindName, BindStep.run, same]
  cases b.bindings.lookup (y.name env) <;> rfl

theorem bindComponent_name (y : Slot) :
    b.bindComponent qt e (.name (Mention.name env ⟨true, y⟩)) =
      BindStep.run env b (.mention ⟨true, y⟩ (quotedColumn qt e)) := by
  rw [Binds.bindComponent, BindStep.run]
  cases b.bindings.lookup (Mention.name env ⟨true, y⟩) <;> rfl

theorem bindComponent_term :
    b.bindComponent qt e (processQtComponent env t) =
      (componentSteps qt e t.slot?).foldl (BindStep.run env) b := by
  cases t with
  | var v => exact bindComponent_name (.var v)
  | blankNode label => exact bindComponent_name (.blank label)
  | namedNode iri =>
    rw [processQtComponent]
    cases env.lookupIri iri <;> rfl
  | literal lit => rfl
  | triple s p o => rfl

theorem bindComponent_predicate {p : NamedNodePattern} :
    b.bindComponent qt e (processQtPredicate env p) =
      (componentSteps qt e p.slot?).foldl (BindStep.run env) b := by
  cases p with
  | var v => exact bindComponent_name (.var v)
  | namedNode iri =>
    rw [processQtPredicate]
    cases env.lookupIri iri <;> rfl

theorem bindTerm_eq : bindTerm env m c t b = (termSteps env m c t).foldl (BindStep.run env) b := by
  cases t with
  | var v => exact bindName_eq (.var v)
  | blankNode label => exact bindName_eq (.blank label)
  | namedNode iri =>
    rw [bindTerm, termSteps]
    cases env.lookupIri iri <;> rfl
  | literal lit => rfl
  | triple s p o =>
    rw [bindTerm, termSteps]
    cases groundTermId env (.triple s p o) with
    | some id => rfl
    | none =>
      dsimp only
      rw [List.foldl_cons, List.foldl_append, List.foldl_append, ← bindComponent_term,
        ← bindComponent_predicate, ← bindComponent_term]
      rfl

/-- The patterns without the repeated ones. -/
def firsts (seen : List TriplePattern) : List TriplePattern → List TriplePattern
  | [] => []
  | tp :: tps => if tp ∈ seen then firsts seen tps else tp :: firsts (tp :: seen) tps

/-- The patterns under their aliases. -/
def numbered : Nat → List TriplePattern → List (Alias × TriplePattern)
  | _, [] => []
  | n, tp :: tps => (n, tp) :: numbered (n + 1) tps

theorem map_snd_numbered (tps : List TriplePattern) : (numbered n tps).map Prod.snd = tps := by
  induction tps generalizing n with
  | nil => rfl
  | cons tp tps ih => rw [numbered, List.map_cons, ih]

theorem le_of_mem_numbered {tps : List TriplePattern} {x : Alias × TriplePattern}
    (hx : x ∈ numbered n tps) : ∃ k, n ≤ k ∧ x.1 = .counted k := by
  induction tps generalizing n with
  | nil => cases hx
  | cons tp tps ih =>
    obtain rfl | later := List.mem_cons.mp hx
    · exact ⟨n, Nat.le_refl _, rfl⟩
    · obtain ⟨k, le, same⟩ := ih later
      exact ⟨k, by omega, same⟩

theorem nodup_numbered (tps : List TriplePattern) : ((numbered n tps).map Prod.fst).Nodup := by
  induction tps generalizing n with
  | nil => exact List.nodup_nil
  | cons tp tps ih =>
    rw [numbered, List.map_cons, List.nodup_cons]
    refine ⟨?_, ih⟩
    intro again
    obtain ⟨x, hx, same⟩ := List.mem_map.mp again
    obtain ⟨k, le, counted⟩ := le_of_mem_numbered hx
    cases same.symm.trans counted
    exact absurd le (Nat.not_succ_le_self _)

/-- The `FROM` items and steps of one pattern. -/
theorem translateTriple_eq {tp : TriplePattern}
    (done : translateTriple env graphFilter n tp frag = some frag') :
    frag'.fromItems = frag.fromItems ++ [(Alias.counted n, patternSource env graphFilter tp)] ∧
      (⟨frag'.bindings, frag'.conditions⟩ : Binds) =
        (patternSteps env (n, tp)).foldl (BindStep.run env) ⟨frag.bindings, frag.conditions⟩ := by
  rw [translateTriple] at done
  rw [patternSource, patternSteps]
  cases hp : tp.predicate with
  | namedNode iri =>
    rw [hp] at done
    cases done
    refine ⟨rfl, ?_⟩
    rw [List.foldl_append, List.foldl_append, ← bindTerm_eq, ← bindTerm_eq]
    rfl
  | var v =>
    rw [hp] at done
    cases found : env.unionPredicates with
    | none =>
      simp only [found] at done
      cases done
    | some preds =>
      simp only [found] at done
      cases done
      refine ⟨rfl, ?_⟩
      rw [List.foldl_append, List.foldl_append, ← bindTerm_eq, ← bindTerm_eq]
      refine congrArg (fun b => bindTerm env n .o tp.object (bindTerm env n .s tp.subject b)) ?_
      exact bindName_eq (.var v)

theorem translateTriples_eq {tps seen : List TriplePattern}
    (done : translateTriples env graphFilter tps seen n frag = some (frag', n')) :
    frag'.fromItems = frag.fromItems ++
        (numbered n (firsts seen tps)).map (fun x => (x.1, patternSource env graphFilter x.2)) ∧
      (⟨frag'.bindings, frag'.conditions⟩ : Binds) =
        ((numbered n (firsts seen tps)).flatMap (patternSteps env)).foldl (BindStep.run env)
          ⟨frag.bindings, frag.conditions⟩ := by
  induction tps generalizing seen n frag with
  | nil =>
    cases done
    exact ⟨(List.append_nil _).symm, rfl⟩
  | cons tp tps ih =>
    rw [translateTriples] at done
    rw [firsts]
    split at done
    · next repeated =>
      rw [if_pos repeated]
      exact ih done
    · next new =>
      obtain ⟨mid, one, rest⟩ := Option.bind_eq_some_iff.mp done
      obtain ⟨items, binds⟩ := translateTriple_eq one
      obtain ⟨items', binds'⟩ := ih rest
      rw [if_neg new, numbered, List.map_cons, List.flatMap_cons, List.foldl_append, ← binds]
      refine ⟨?_, binds'⟩
      rw [items', items, List.append_assoc]
      rfl

end Steps

/-- The places of variables and blank nodes among some steps. -/
def mentioned (steps : List BindStep) : List (Mention × ColExpr) :=
  steps.filterMap fun
    | .mention m e => some (m, e)
    | .check _ => none

/-- The first place with a name. -/
def binder (env : Env) (xs : List (Mention × ColExpr)) (name : String) :
    Option (Mention × ColExpr) :=
  xs.find? fun x => x.1.name env = name

section Names

variable {env : Env} {xs : List (Mention × ColExpr)} {x z : Mention × ColExpr} {name : String}
  {steps : List BindStep} {db : Db} {j : Joined} {μ : Slot → TermId}

theorem binder_concat :
    binder env (xs ++ [z]) name =
      (binder env xs name).or (if z.1.name env = name then some z else none) := by
  rw [binder, List.find?_append, binder, List.find?_singleton]
  simp only [decide_eq_true_eq]

theorem isSome_binder (hx : x ∈ xs) : (binder env xs (x.1.name env)).isSome = true := by
  rw [binder, List.find?_isSome]
  exact ⟨x, hx, decide_eq_true rfl⟩

theorem binder_concat_of_mem (hx : x ∈ xs) :
    binder env (xs ++ [z]) (x.1.name env) = binder env xs (x.1.name env) := by
  obtain ⟨b, found⟩ := Option.isSome_iff_exists.mp (@isSome_binder env xs x hx)
  rw [binder_concat, found]
  rfl

theorem mem_of_binder (found : binder env xs name = some x) : x ∈ xs :=
  List.mem_of_find?_eq_some found

/-- Each place outside of quotes has the value of the first place with its name. -/
def Agreeing (env : Env) (db : Db) (j : Joined) (xs : List (Mention × ColExpr)) : Prop :=
  ∀ x ∈ xs, x.1.quoted = false → ∀ b, binder env xs (x.1.name env) = some b → x.2 db j = b.2 db j

theorem agreeing_concat :
    Agreeing env db j (xs ++ [z]) ↔
      Agreeing env db j xs ∧ (z.1.quoted = false → ∀ b, binder env xs (z.1.name env) = some b →
        z.2 db j = b.2 db j) := by
  constructor
  · intro all
    refine ⟨?_, ?_⟩
    · intro x hx outside b found
      refine all x (List.mem_append_left _ hx) outside b ?_
      rw [binder_concat_of_mem hx, found]
    · intro outside b found
      refine all z (List.mem_append_right _ (List.mem_singleton_self z)) outside b ?_
      rw [binder_concat, found]
      rfl
  · rintro ⟨old, new⟩ x hx outside b found
    obtain hx | hx := List.mem_append.mp hx
    · rw [binder_concat_of_mem hx] at found
      exact old x hx outside b found
    · cases List.mem_singleton.mp hx
      rw [binder_concat] at found
      cases before : binder env xs (z.1.name env) with
      | some b' =>
        rw [before] at found
        cases found
        exact new outside b before
      | none =>
        rw [before, if_pos rfl] at found
        cases found
        rfl

/-- What the bindings and conditions are after some steps. -/
structure Binds.Collects (env : Env) (steps : List BindStep) (b : Binds) : Prop where
  lookup : ∀ name, b.bindings.lookup name = (binder env (mentioned steps) name).map Prod.snd
  checks : ∀ db j, (∀ c ∈ b.conditions, c db j = true) →
    ∀ c, BindStep.check c ∈ steps → c db j = true
  conditions : ∀ db j, (∀ x ∈ mentioned steps, (x.2 db j).isSome = true) →
    ((∀ c ∈ b.conditions, c db j = true) ↔
      (∀ c, BindStep.check c ∈ steps → c db j = true) ∧ Agreeing env db j (mentioned steps))

theorem mentioned_append (steps steps' : List BindStep) :
    mentioned (steps ++ steps') = mentioned steps ++ mentioned steps' := List.filterMap_append

theorem forall_mem_require {b : Binds} {c : Cond} :
    (∀ c' ∈ (b.require c).conditions, c' db j = true) ↔
      (∀ c' ∈ b.conditions, c' db j = true) ∧ c db j = true := by
  rw [Binds.require, List.forall_mem_append, List.forall_mem_singleton]

theorem Binds.Collects.run {b : Binds} (h : b.Collects env steps) (step : BindStep) :
    (BindStep.run env b step).Collects env (steps ++ [step]) := by
  cases step with
  | check c =>
    have same : mentioned (steps ++ [.check c]) = mentioned steps := by
      rw [mentioned_append]
      exact List.append_nil _
    have checks (db : Db) (j : Joined) :
        (∀ c', BindStep.check c' ∈ steps ++ [.check c] → c' db j = true) ↔
          (∀ c', BindStep.check c' ∈ steps → c' db j = true) ∧ c db j = true := by
      simp [or_imp, forall_and]
    refine ⟨?_, ?_, ?_⟩
    · rw [same]
      exact h.lookup
    · intro db j holds
      obtain ⟨old, new⟩ := forall_mem_require.mp holds
      exact (checks db j).mpr ⟨h.checks db j old, new⟩
    · rw [same]
      intro db j known
      rw [BindStep.run, forall_mem_require, h.conditions db j known, and_right_comm, checks]
  | mention m e =>
    have more : mentioned (steps ++ [.mention m e]) = mentioned steps ++ [(m, e)] :=
      mentioned_append _ _
    have checks (db : Db) (j : Joined) :
        (∀ c, BindStep.check c ∈ steps ++ [.mention m e] → c db j = true) ↔
          ∀ c, BindStep.check c ∈ steps → c db j = true := by simp
    rw [BindStep.run, h.lookup]
    cases found : binder env (mentioned steps) (m.name env) with
    | some first =>
      -- the name has a column already
      have kept (name : String) : binder env (mentioned steps ++ [(m, e)]) name =
          binder env (mentioned steps) name := by
        rw [binder_concat]
        split
        · next same =>
          have same : m.name env = name := same
          rw [← same, found]
          rfl
        · exact Option.or_none
      have agreeing (db : Db) (j : Joined) :
          Agreeing env db j (mentioned steps ++ [(m, e)]) ↔
            Agreeing env db j (mentioned steps) ∧ (m.quoted = false → e db j = first.2 db j) := by
        rw [agreeing_concat, found]
        simp
      rw [Option.map_some]
      refine ⟨?_, ?_, ?_⟩
      · intro name
        rw [more, kept, ← h.lookup]
        dsimp only
        split <;> rfl
      · intro db j holds
        refine (checks db j).mpr (h.checks db j ?_)
        dsimp only at holds
        split at holds
        · exact holds
        · exact (forall_mem_require.mp holds).1
      · intro db j known
        rw [more] at known
        have known' := fun x hx => known x (List.mem_append_left _ hx)
        have here := known (m, e) (List.mem_append_right _ (List.mem_singleton_self _))
        rw [checks, more, agreeing, ← and_assoc, ← h.conditions db j known']
        dsimp only
        cases m.quoted with
        | true => simp
        | false =>
          rw [if_neg (by decide), forall_mem_require, Cond.eq, Bool.and_eq_true,
            decide_eq_true_iff, imp_iff_right rfl, and_iff_right here]
    | none =>
      have agreeing (db : Db) (j : Joined) :
          Agreeing env db j (mentioned steps ++ [(m, e)]) ↔
            Agreeing env db j (mentioned steps) := by
        rw [agreeing_concat, found]
        simp
      refine ⟨?_, fun db j holds => (checks db j).mpr (h.checks db j holds), ?_⟩
      · intro name
        have new : b.bindings.lookup (m.name env) = none := by rw [h.lookup, found]; rfl
        rw [more, binder_concat]
        dsimp only [Option.map_none]
        rw [Binds.lookup_append_new new, h.lookup]
        by_cases same : name = m.name env
        · rw [if_pos same, same, found, if_pos rfl]
          rfl
        · rw [if_neg same, if_neg (Ne.symm same), Option.or_none]
      · intro db j known
        rw [more] at known
        rw [checks, more, agreeing]
        exact h.conditions db j fun x hx => known x (List.mem_append_left _ hx)

theorem collects_nil : Binds.Collects env [] ⟨[], []⟩ where
  lookup _ := rfl
  checks _ _ _ _ h := by cases h
  conditions _ _ _ := by simp [Agreeing, mentioned]

theorem collects_foldl (steps : List BindStep) :
    (steps.foldl (BindStep.run env) ⟨[], []⟩).Collects env steps := by
  induction steps using List.reverseRecOn with
  | nil => exact collects_nil
  | append_singleton steps step ih =>
    rw [List.foldl_append]
    exact ih.run step

end Names

/-- A place inside of quotes is the first of its variable or blank node, and the name of a
variable is not taken. A place outside of quotes is the first in the same sense, or its name
was taken by the variable or blank node itself. -/
def Mention.Fine (name : Mention → String) (before : List Mention) (m : Mention) : Prop :=
  if m.quoted then
    m.slot ∉ before.map Mention.slot ∧
      ∀ v, m.slot = .var v → before.find? (fun b => name b = name m) = none
  else
    match before.find? fun b => name b = name m with
    | some b => b.slot = m.slot
    | none => m.slot ∉ before.map Mention.slot

/-- All places are fine after those before them. -/
def AllFine (name : Mention → String) (ms : List Mention) : Prop :=
  ∀ before m after, ms = before ++ m :: after → m.Fine name before

theorem allFine_nil {name : Mention → String} : AllFine name [] := by
  intro before m after none
  cases List.append_eq_nil_iff.mp none.symm with
  | intro _ none => cases none

theorem allFine_concat {name : Mention → String} {ms : List Mention} {m : Mention} :
    AllFine name (ms ++ [m]) ↔ AllFine name ms ∧ m.Fine name ms := by
  constructor
  · intro h
    refine ⟨?_, h ms m [] rfl⟩
    rintro before m' after rfl
    refine h before m' (after ++ [m]) ?_
    rw [List.append_assoc, List.cons_append]
  · rintro ⟨old, new⟩ before m' after split
    cases after using List.reverseRecOn with
    | nil =>
      obtain ⟨rfl, same⟩ := List.append_inj' split rfl
      cases List.cons.inj same with
      | intro same _ => exact same ▸ new
    | append_singleton after last =>
      rw [← List.cons_append, ← List.append_assoc] at split
      obtain ⟨rfl, -⟩ := List.append_inj' split rfl
      exact old before m' after rfl

section FirstPlaces

variable {env : Env} {xs : List (Mention × ColExpr)} {z : Mention × ColExpr} {db : Db}
  {j : Joined} {μ : Slot → TermId}

theorem name_of_var {m : Mention} {v : String} (slot : m.slot = .var v) : m.name env = v := by
  obtain ⟨quoted, y⟩ := m
  cases slot
  cases quoted <;> rfl

theorem find?_map_fst (name : String) :
    (xs.map Prod.fst).find? (fun b => b.name env = name) = (binder env xs name).map Prod.fst := by
  rw [List.find?_map]
  rfl

/-- Outside of quotes, and for variables also inside, the name belongs to the variable or
blank node itself. -/
theorem slot_of_binder (fine : AllFine (Mention.name env) (xs.map Prod.fst))
    {x b : Mention × ColExpr} (hx : x ∈ xs)
    (own : x.1.quoted = true → ∃ v, x.1.slot = .var v)
    (found : binder env xs (x.1.name env) = some b) : b.1.slot = x.1.slot := by
  induction xs using List.reverseRecOn generalizing x b with
  | nil => cases hx
  | append_singleton xs z ih =>
    rw [List.map_append] at fine
    obtain ⟨fine, here⟩ := allFine_concat.mp fine
    obtain old | new := List.mem_append.mp hx
    · rw [binder_concat_of_mem old] at found
      exact ih fine old own found
    · cases List.mem_singleton.mp new
      rw [binder_concat, if_pos rfl] at found
      cases before : binder env xs (z.1.name env) with
      | none =>
        rw [before] at found
        cases found
        rfl
      | some first =>
        rw [before] at found
        cases found
        rw [Mention.Fine] at here
        split at here
        · next quoted =>
          obtain ⟨v, slot⟩ := own quoted
          have taken := here.2 v slot
          rw [find?_map_fst, before] at taken
          cases taken
        · rw [find?_map_fst, before] at here
          exact here

/-- Where the places agree, each variable and blank node has one value. -/
theorem exists_assignment (fine : AllFine (Mention.name env) (xs.map Prod.fst))
    (known : ∀ x ∈ xs, (x.2 db j).isSome = true) (agreeing : Agreeing env db j xs) :
    ∃ μ : Slot → TermId, ∀ x ∈ xs, x.2 db j = some (μ x.1.slot) := by
  induction xs using List.reverseRecOn with
  | nil => exact ⟨fun _ => 0, List.forall_mem_nil _⟩
  | append_singleton xs z ih =>
    rw [List.map_append] at fine
    obtain ⟨fine, here⟩ := allFine_concat.mp fine
    obtain ⟨agreeing, equation⟩ := agreeing_concat.mp agreeing
    obtain ⟨μ, values⟩ := ih fine (fun x hx => known x (List.mem_append_left _ hx)) agreeing
    obtain ⟨id, value⟩ := Option.isSome_iff_exists.mp
      (known z (List.mem_append_right _ (List.mem_singleton_self z)))
    have new (fresh : z.1.slot ∉ (xs.map Prod.fst).map Mention.slot) :
        ∃ μ : Slot → TermId, ∀ x ∈ xs ++ [z], x.2 db j = some (μ x.1.slot) := by
      refine ⟨Function.update μ z.1.slot id, fun x hx => ?_⟩
      obtain old | last := List.mem_append.mp hx
      · have other : x.1.slot ≠ z.1.slot := by
          intro same
          refine fresh (List.mem_map.mpr ⟨x.1, ?_, same⟩)
          exact List.mem_map_of_mem old
        rw [Function.update_of_ne other]
        exact values x old
      · cases List.mem_singleton.mp last
        rw [Function.update_self]
        exact value
    rw [Mention.Fine] at here
    split at here
    · exact new here.1
    · next outside =>
      rw [find?_map_fst] at here
      cases before : binder env xs (z.1.name env) with
      | none =>
        rw [before] at here
        exact new here
      | some b =>
        rw [before] at here
        have same : b.1.slot = z.1.slot := here
        refine ⟨μ, fun x hx => ?_⟩
        obtain old | last := List.mem_append.mp hx
        · exact values x old
        · cases List.mem_singleton.mp last
          rw [equation (by simpa using outside) b before, values b (mem_of_binder before), same]

/-- Places with the values of one assignment agree. -/
theorem agreeing_of_values (fine : AllFine (Mention.name env) (xs.map Prod.fst))
    (values : ∀ x ∈ xs, x.2 db j = some (μ x.1.slot)) : Agreeing env db j xs := by
  intro x hx outside b found
  have own : x.1.quoted = true → ∃ v, x.1.slot = .var v := by
    intro quoted
    rw [outside] at quoted
    cases quoted
  rw [values x hx, values b (mem_of_binder found), slot_of_binder fine hx own found]

/-- The column of a variable has its value. -/
theorem value_of_binder (fine : AllFine (Mention.name env) (xs.map Prod.fst))
    (values : ∀ x ∈ xs, x.2 db j = some (μ x.1.slot)) {x : Mention × ColExpr} (hx : x ∈ xs)
    {v : String} (slot : x.1.slot = .var v) :
    (binder env xs v).bind (fun b => b.2 db j) = some (μ (.var v)) := by
  have named : x.1.name env = v := name_of_var slot
  obtain ⟨b, found⟩ := Option.isSome_iff_exists.mp (@isSome_binder env xs x hx)
  have same := slot_of_binder fine hx (fun _ => ⟨v, slot⟩) found
  rw [named] at found
  rw [found, Option.bind_some, values b (mem_of_binder found), same, slot]

end FirstPlaces

end PgRipple.Sparql
