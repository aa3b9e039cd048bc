import Mathlib.Data.List.Basic

/-!
# Tests that may not return

A test whose evaluation may not end is a function into `Option Bool`. The searches over a
list are those of a program: `anyM` and `allM` stop at the member that decides, `filter`
runs the test on all members. `Below` orders tests by how often they return; a search
with a test that returns more often returns the same.
-/

namespace Partial

variable {α β : Type*} {test other : α → Option Bool} {l : List α}

/-- The members that pass. -/
def filter (test : α → Option Bool) : List α → Option (List α)
  | [] => some []
  | a :: l => (test a).bind fun b => (filter test l).map fun rest => if b then a :: rest else rest

/-- The opposite test. -/
def negate (test : α → Option Bool) (a : α) : Option Bool := (test a).map not

/-- Whatever the first computation returns, the second returns too. -/
def Below (x y : Option β) : Prop := ∀ b, x = some b → y = some b

theorem Below.refl (x : Option β) : Below x x := fun _ h => h

theorem Below.map {γ : Type*} {x y : Option β} (h : Below x y) (f : β → γ) :
    Below (x.map f) (y.map f) := by
  intro c hc
  obtain ⟨b, hb, rfl⟩ := Option.map_eq_some_iff.mp hc
  rw [h b hb]
  rfl

theorem Below.bind {γ : Type*} {x y : Option β} {f g : β → Option γ} (h : Below x y)
    (next : ∀ b, Below (f b) (g b)) : Below (x.bind f) (y.bind g) := by
  intro c hc
  obtain ⟨b, hb, hf⟩ := Option.bind_eq_some_iff.mp hc
  rw [h b hb]
  exact next b c hf

theorem anyM_cons (a : α) : (a :: l).anyM test =
    (test a).bind fun b => if b then some true else l.anyM test := by
  rw [List.anyM]
  congr 1
  funext b
  cases b <;> rfl

theorem allM_cons (a : α) : (a :: l).allM test =
    (test a).bind fun b => if b then l.allM test else some false := by
  rw [List.allM]
  congr 1
  funext b
  cases b <;> rfl

theorem isSome_filter (h : ∀ a ∈ l, (test a).isSome = true) : (filter test l).isSome = true := by
  induction l with
  | nil => rfl
  | cons a l ih =>
    obtain ⟨b, hb⟩ := Option.isSome_iff_exists.mp (h a List.mem_cons_self)
    rw [filter, hb, Option.bind_some, Option.isSome_map]
    exact ih fun a' ha' => h a' (List.mem_cons_of_mem a ha')

theorem isSome_anyM (h : ∀ a ∈ l, (test a).isSome = true) : (l.anyM test).isSome = true := by
  induction l with
  | nil => rfl
  | cons a l ih =>
    obtain ⟨b, hb⟩ := Option.isSome_iff_exists.mp (h a List.mem_cons_self)
    rw [anyM_cons, hb, Option.bind_some]
    cases b with
    | true => rfl
    | false => exact ih fun a' ha' => h a' (List.mem_cons_of_mem a ha')

theorem isSome_allM (h : ∀ a ∈ l, (test a).isSome = true) : (l.allM test).isSome = true := by
  induction l with
  | nil => rfl
  | cons a l ih =>
    obtain ⟨b, hb⟩ := Option.isSome_iff_exists.mp (h a List.mem_cons_self)
    rw [allM_cons, hb, Option.bind_some]
    cases b with
    | true => exact ih fun a' ha' => h a' (List.mem_cons_of_mem a ha')
    | false => rfl

theorem isSome_mapM {f : α → Option β} (h : ∀ a ∈ l, (f a).isSome = true) :
    (l.mapM f).isSome = true := by
  induction l with
  | nil => rfl
  | cons a l ih =>
    obtain ⟨b, hb⟩ := Option.isSome_iff_exists.mp (h a List.mem_cons_self)
    obtain ⟨bs, hbs⟩ :=
      Option.isSome_iff_exists.mp (ih fun a' ha' => h a' (List.mem_cons_of_mem a ha'))
    rw [List.mapM_cons, hb, hbs]
    rfl

theorem allM_eq_true_iff : l.allM test = some true ↔ ∀ a ∈ l, test a = some true := by
  induction l with
  | nil => simp [List.allM]
  | cons a l ih =>
    rw [allM_cons, List.forall_mem_cons, ← ih]
    cases test a with
    | none => simp
    | some b => cases b <;> simp

theorem filter_eq_some_iff {found : List α} : filter test l = some found ↔
    (∀ a ∈ l, (test a).isSome = true) ∧ found = l.filter fun a => test a = some true := by
  induction l generalizing found with
  | nil =>
    rw [filter, Option.some_inj, List.filter_nil]
    constructor
    · rintro rfl
      exact ⟨fun _ ha => absurd ha List.not_mem_nil, rfl⟩
    · exact fun h => h.2.symm
  | cons a l ih =>
    rw [filter, List.forall_mem_cons, List.filter_cons, Option.bind_eq_some_iff]
    constructor
    · rintro ⟨b, tested, h⟩
      obtain ⟨rest, hrest, rfl⟩ := Option.map_eq_some_iff.mp h
      obtain ⟨returns, rfl⟩ := ih.mp hrest
      rw [tested]
      refine ⟨⟨rfl, returns⟩, ?_⟩
      cases b <;> rfl
    · rintro ⟨⟨returns, others⟩, rfl⟩
      obtain ⟨b, tested⟩ := Option.isSome_iff_exists.mp returns
      refine ⟨b, tested, Option.map_eq_some_iff.mpr ⟨_, ih.mpr ⟨others, rfl⟩, ?_⟩⟩
      rw [tested]
      cases b <;> rfl

theorem filter_eq_nil_iff : filter test l = some [] ↔ ∀ a ∈ l, test a = some false := by
  induction l with
  | nil => simp [filter]
  | cons a l ih =>
    rw [filter, List.forall_mem_cons, ← ih]
    cases test a with
    | none => simp
    | some b => cases b <;> cases filter test l <;> simp

/-- Nothing is collected if no member contributes. -/
theorem flatten_mapM_eq_nil_iff {f : α → Option (List β)} :
    (l.mapM f).map List.flatten = some [] ↔ ∀ a ∈ l, f a = some [] := by
  induction l with
  | nil => simp
  | cons a l ih =>
    rw [List.forall_mem_cons, ← ih, List.mapM_cons]
    cases f a with
    | none => simp
    | some bs => cases l.mapM f <;> simp

theorem negate_eq_false_iff {a : α} : negate test a = some false ↔ test a = some true := by
  rw [negate]
  cases test a with
  | none => simp
  | some b => cases b <;> simp

section Below

variable (h : ∀ a, Below (test a) (other a))

include h

theorem below_filter : Below (filter test l) (filter other l) := by
  induction l with
  | nil => exact .refl _
  | cons a l ih => exact (h a).bind fun b => ih.map _

theorem below_negate (a : α) : Below (negate test a) (negate other a) := (h a).map _

theorem below_anyM : Below (l.anyM test) (l.anyM other) := by
  induction l with
  | nil => exact .refl _
  | cons a l ih =>
    rw [anyM_cons, anyM_cons]
    refine (h a).bind fun b => ?_
    cases b with
    | true => exact .refl _
    | false => exact ih

theorem below_allM : Below (l.allM test) (l.allM other) := by
  induction l with
  | nil => exact .refl _
  | cons a l ih =>
    rw [allM_cons, allM_cons]
    refine (h a).bind fun b => ?_
    cases b with
    | true => exact ih
    | false => exact .refl _

end Below

theorem below_mapM {f g : α → Option β} (h : ∀ a, Below (f a) (g a)) :
    Below (l.mapM f) (l.mapM g) := by
  induction l with
  | nil => exact .refl _
  | cons a l ih =>
    rw [List.mapM_cons, List.mapM_cons]
    exact (h a).bind fun b => ih.bind fun bs => .refl _

/-- A member is reached if the search goes on after all members before it. -/
def Reached (going : α → Prop) (l : List α) (a : α) : Prop :=
  ∃ before after, l = before ++ a :: after ∧ ∀ x ∈ before, going x

theorem reached_cons {going : α → Prop} {a b : α} :
    Reached going (a :: l) b ↔ b = a ∨ (going a ∧ Reached going l b) := by
  constructor
  · rintro ⟨before, after, split, passed⟩
    cases before with
    | nil => exact .inl (List.cons.inj split).1.symm
    | cons x before =>
      obtain ⟨rfl, rest⟩ := List.cons.inj split
      rw [List.forall_mem_cons] at passed
      exact .inr ⟨passed.1, before, after, rest, passed.2⟩
  · rintro (rfl | ⟨here, before, after, rfl, passed⟩)
    · exact ⟨[], l, rfl, fun x hx => absurd hx List.not_mem_nil⟩
    · exact ⟨a :: before, after, rfl, List.forall_mem_cons.mpr ⟨here, passed⟩⟩

theorem not_reached_nil {going : α → Prop} {a : α} : ¬ Reached going [] a := by
  rintro ⟨before, after, split, -⟩
  exact absurd split.symm (by simp)

theorem allM_eq_map_not : l.allM test = (l.anyM (negate test)).map not := by
  induction l with
  | nil => rfl
  | cons a l ih =>
    rw [allM_cons, anyM_cons, negate, ih]
    cases test a with
    | none => rfl
    | some b =>
      cases b
      all_goals rfl

/-- Searches agree if the tests agree on all members that are reached. -/
theorem anyM_congr (h : ∀ a, Reached (fun x => test x = some false) l a → test a = other a) :
    l.anyM test = l.anyM other := by
  induction l with
  | nil => rfl
  | cons a l ih =>
    rw [anyM_cons, anyM_cons, ← h a (reached_cons.mpr (.inl rfl))]
    cases tested : test a with
    | none => rfl
    | some b =>
      cases b with
      | true => rfl
      | false => exact ih fun b hb => h b (reached_cons.mpr (.inr ⟨tested, hb⟩))

theorem allM_congr (h : ∀ a, Reached (fun x => test x = some true) l a → test a = other a) :
    l.allM test = l.allM other := by
  rw [allM_eq_map_not, allM_eq_map_not]
  refine congrArg _ (anyM_congr fun a reached => ?_)
  rw [negate, negate, h a]
  simpa only [negate_eq_false_iff] using reached

section Reached

variable (le : ∀ a, Below (test a) (other a))

include le

/-- A search returns exactly if the test returns on all members that it reaches. -/
theorem isSome_anyM_iff : (l.anyM test).isSome = true ↔
    ∀ a, Reached (fun x => other x = some false) l a → (test a).isSome = true := by
  induction l with
  | nil => exact ⟨fun _ a ha => absurd ha not_reached_nil, fun _ => rfl⟩
  | cons a l ih =>
    rw [anyM_cons]
    simp only [reached_cons]
    cases tested : test a with
    | none =>
      refine ⟨fun h => absurd h Bool.false_ne_true, fun h => ?_⟩
      have returns := h a (.inl rfl)
      rw [tested] at returns
      cases returns
    | some b =>
      have known := le a b tested
      cases b with
      | true =>
        refine ⟨fun _ x hx => ?_, fun _ => rfl⟩
        obtain rfl | ⟨going, -⟩ := hx
        · rw [tested]
          rfl
        · rw [known] at going
          cases going
      | false =>
        rw [Option.bind_some, if_neg Bool.false_ne_true, ih]
        refine ⟨fun h x hx => ?_, fun h x hx => h x (.inr ⟨known, hx⟩)⟩
        obtain rfl | ⟨-, hx⟩ := hx
        · rw [tested]
          rfl
        · exact h x hx

theorem isSome_allM_iff : (l.allM test).isSome = true ↔
    ∀ a, Reached (fun x => other x = some true) l a → (test a).isSome = true := by
  rw [allM_eq_map_not, Option.isSome_map, isSome_anyM_iff (below_negate le)]
  simp only [negate_eq_false_iff]
  simp only [negate, Option.isSome_map]

end Reached

theorem isSome_filter_iff : (filter test l).isSome = true ↔ ∀ a ∈ l, (test a).isSome = true := by
  refine ⟨fun h => ?_, isSome_filter⟩
  obtain ⟨kept, hkept⟩ := Option.isSome_iff_exists.mp h
  exact (filter_eq_some_iff.mp hkept).1

theorem isSome_mapM_iff {f : α → Option β} :
    (l.mapM f).isSome = true ↔ ∀ a ∈ l, (f a).isSome = true := by
  refine ⟨fun h => ?_, isSome_mapM⟩
  induction l with
  | nil => exact fun a ha => absurd ha List.not_mem_nil
  | cons a l ih =>
    rw [List.mapM_cons] at h
    rw [List.forall_mem_cons]
    cases first : f a with
    | none =>
      rw [first] at h
      cases h
    | some b =>
      rw [first] at h
      cases rest : l.mapM f with
      | none =>
        rw [rest] at h
        cases h
      | some bs => exact ⟨rfl, ih (by rw [rest]; rfl)⟩

end Partial
