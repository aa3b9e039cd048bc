import Mathlib.Data.List.Infix

/-!
# Cutting a text at a separator

A text is cut at the first or at the last occurrence of a separator. Where parts are free of
a mark, the part before the first mark is determined by the text.
-/

namespace PgRipple.Split

variable {α : Type} {sep s a b r t p : List α} {mark : α}

section Separator

variable [DecidableEq α]

/-- The parts before and after the first occurrence of `sep`. -/
def splitOnce (sep : List α) : List α → Option (List α × List α)
  | [] => if sep = [] then some ([], []) else none
  | c :: cs =>
    match sep.isPrefixOf? (c :: cs) with
    | some rest => some ([], rest)
    | none => (splitOnce sep cs).map fun (a, b) => (c :: a, b)

theorem isPrefixOf?_eq_some_iff : p.isPrefixOf? s = some r ↔ s = p ++ r := by
  induction p generalizing s with
  | nil => simp [List.isPrefixOf?, eq_comm]
  | cons c p ih =>
    cases s with
    | nil => simp [List.isPrefixOf?]
    | cons d s =>
      rw [List.isPrefixOf?]
      by_cases same : c = d
      · simp [same, ih]
      · simp [same, Ne.symm same]

theorem isPrefixOf?_eq_none_iff : p.isPrefixOf? s = none ↔ ¬ p <+: s := by
  rw [Option.eq_none_iff_forall_ne_some, List.IsPrefix, not_exists]
  refine forall_congr' fun r => ?_
  rw [Ne, isPrefixOf?_eq_some_iff, eq_comm]

theorem eq_of_splitOnce (h : splitOnce sep s = some (a, b)) : s = a ++ sep ++ b := by
  induction s generalizing a b with
  | nil =>
    rw [splitOnce] at h
    split at h
    · rename_i empty
      cases h
      rw [empty]
      rfl
    · cases h
  | cons c cs ih =>
    rw [splitOnce] at h
    split at h
    · rename_i rest found
      cases h
      exact isPrefixOf?_eq_some_iff.mp found
    · obtain ⟨⟨a', b'⟩, rest, same⟩ := Option.map_eq_some_iff.mp h
      cases same
      rw [ih rest]
      rfl

/-- The separator does not occur earlier. -/
theorem not_prefix_of_splitOnce (h : splitOnce sep (t ++ r) = some (t ++ a, b)) (here : r ≠ [])
    (rest : a ≠ []) : ¬ sep <+: r := by
  induction t with
  | nil =>
    obtain ⟨c, cs, rfl⟩ := List.exists_cons_of_ne_nil here
    rw [List.nil_append, splitOnce] at h
    split at h
    · cases h
      exact absurd rfl rest
    · exact isPrefixOf?_eq_none_iff.mp ‹_›
  | cons c t ih =>
    rw [List.cons_append, List.cons_append, splitOnce] at h
    split at h
    · cases h
    · obtain ⟨⟨a', b'⟩, found, same⟩ := Option.map_eq_some_iff.mp h
      cases same
      exact ih found

/-- A text that is free of the mark is read up to it. -/
theorem splitOnce_marked (free : mark ∉ a) :
    splitOnce [mark] (a ++ mark :: b) = some (a, b) := by
  induction a with
  | nil => simp [splitOnce, List.isPrefixOf?]
  | cons c a ih =>
    rw [List.mem_cons, not_or] at free
    have here : [mark].isPrefixOf? (c :: (a ++ mark :: b)) = none := by
      simp [List.isPrefixOf?, free.1]
    rw [List.cons_append, splitOnce, here]
    simp only [ih free.2, Option.map_some]

/-- The parts before and after the last occurrence of `sep`. -/
def rsplitOnce (sep : List α) : List α → Option (List α × List α)
  | [] => if sep = [] then some ([], []) else none
  | c :: cs =>
    match rsplitOnce sep cs with
    | some (a, b) => some (c :: a, b)
    | none => (sep.isPrefixOf? (c :: cs)).map fun rest => ([], rest)

theorem eq_of_rsplitOnce (h : rsplitOnce sep s = some (a, b)) : s = a ++ sep ++ b := by
  induction s generalizing a with
  | nil =>
    rw [rsplitOnce] at h
    split at h
    · rename_i empty
      cases h
      rw [empty]
      rfl
    · cases h
  | cons c cs ih =>
    rw [rsplitOnce] at h
    split at h
    · rename_i a' b' found
      cases h
      rw [ih found]
      rfl
    · obtain ⟨rest, found, same⟩ := Option.map_eq_some_iff.mp h
      cases same
      exact isPrefixOf?_eq_some_iff.mp found

theorem rsplitOnce_eq_none_iff (some' : sep ≠ []) : rsplitOnce sep s = none ↔ ¬ sep <:+: s := by
  induction s with
  | nil => simp [rsplitOnce, some']
  | cons c cs ih =>
    rw [List.infix_cons_iff, not_or, ← ih, ← isPrefixOf?_eq_none_iff, rsplitOnce]
    cases later : rsplitOnce sep cs with
    | none => simp
    | some parts => simp

/-- What stands before the text does not matter if the separator occurs in it. -/
theorem rsplitOnce_append (h : rsplitOnce sep s = some (a, b)) :
    rsplitOnce sep (t ++ s) = some (t ++ a, b) := by
  induction t with
  | nil => exact h
  | cons c t ih => rw [List.cons_append, rsplitOnce, ih, List.cons_append]

/-- The separator that is followed by no other one. -/
theorem rsplitOnce_last (free : ¬ mark :: p <:+: p ++ b) :
    rsplitOnce (mark :: p) (a ++ mark :: (p ++ b)) = some (a, b) := by
  have none' := (rsplitOnce_eq_none_iff (List.cons_ne_nil mark p)).mpr free
  have found : (mark :: p).isPrefixOf? (mark :: (p ++ b)) = some b :=
    isPrefixOf?_eq_some_iff.mpr rfl
  have here : rsplitOnce (mark :: p) (mark :: (p ++ b)) = some ([], b) := by
    rw [rsplitOnce, none', found, Option.map_some]
  simpa using rsplitOnce_append (t := a) here

end Separator

/-- A prefix that has no mark lies before the first mark. -/
theorem prefix_append_iff (mark : α) (free : mark ∉ p) (tail : t = [] ∨ t.head? = some mark) :
    p <+: a ++ t ↔ p <+: a := by
  constructor
  · intro h
    induction p generalizing a with
    | nil => exact List.nil_prefix
    | cons c p ih =>
      rw [List.mem_cons, not_or] at free
      cases a with
      | nil =>
        obtain rfl | marked := tail
        · exact h
        · obtain ⟨r, rfl⟩ := List.head?_eq_some_iff.mp marked
          rw [List.nil_append, List.cons_prefix_cons] at h
          exact absurd h.1.symm free.1
      | cons d a =>
        rw [List.cons_append, List.cons_prefix_cons] at h
        rw [List.cons_prefix_cons]
        exact ⟨h.1, ih free.2 h.2⟩
  · exact fun h => h.trans (List.prefix_append a t)

/-- An occurrence that begins with the mark, in a text with a last mark. -/
theorem infix_append_mark_iff (free : mark ∉ p) (last : mark ∉ t) :
    mark :: p <:+: a ++ mark :: t ↔ mark :: p <:+: a ∨ p <+: t := by
  have later : ¬ mark :: p <:+: t := fun h => last (h.subset List.mem_cons_self)
  induction a with
  | nil => simp [List.infix_cons_iff, List.cons_prefix_cons, later]
  | cons c a ih =>
    have here : mark :: p <+: c :: (a ++ mark :: t) ↔ mark :: p <+: c :: a := by
      rw [List.cons_prefix_cons, List.cons_prefix_cons, prefix_append_iff mark free (.inr rfl)]
    rw [List.cons_append, List.infix_cons_iff, List.infix_cons_iff, or_assoc]
    exact or_congr here ih

/-- The part before the first mark is determined. -/
theorem marked_prefix_iff (free : mark ∉ p) (free' : mark ∉ a) :
    p ++ mark :: t <+: a ++ mark :: r ↔ p = a ∧ t <+: r := by
  constructor
  · intro h
    induction p generalizing a with
    | nil =>
      cases a with
      | nil =>
        rw [List.nil_append, List.nil_append, List.cons_prefix_cons] at h
        exact ⟨rfl, h.2⟩
      | cons d a =>
        rw [List.nil_append, List.cons_append, List.cons_prefix_cons] at h
        exact absurd (h.1 ▸ List.mem_cons_self) free'
    | cons c p ih =>
      rw [List.mem_cons, not_or] at free
      cases a with
      | nil =>
        rw [List.cons_append, List.nil_append, List.cons_prefix_cons] at h
        exact absurd h.1.symm free.1
      | cons d a =>
        rw [List.mem_cons, not_or] at free'
        rw [List.cons_append, List.cons_append, List.cons_prefix_cons] at h
        obtain ⟨same, rest⟩ := ih free.2 free'.2 h.2
        exact ⟨by rw [h.1, same], rest⟩
  · rintro ⟨rfl, q, rfl⟩
    exact ⟨q, by rw [List.append_assoc, List.cons_append]⟩

/-- The part before the first mark, read off. -/
theorem takeWhile_ne_marked [DecidableEq α] (free : mark ∉ a) :
    (a ++ mark :: r).takeWhile (fun c => decide (c ≠ mark)) = a := by
  rw [List.takeWhile_append_of_pos]
  · simp
  · intro c hc
    rw [decide_eq_true_iff]
    rintro rfl
    exact free hc

end PgRipple.Split
