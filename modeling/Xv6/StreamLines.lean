import Mathlib.Algebra.GroupWithZero.Nat

/-!
# Lines of a stream

A stream over any alphabet is cut at each separator.  Cutting a part of the
stream and then what is left of it with the next part is cutting the whole.
-/

namespace StreamLines

variable {α : Type} [DecidableEq α] {sep b : α} {line rest s t : List α}

/-- One more letter in front. -/
def push (b : α) : List (List α) × List α → List (List α) × List α
  | ([], last) => ([], b :: last)
  | (line :: lines, last) => ((b :: line) :: lines, last)

/-- The lines of a stream, and what is behind its last separator. -/
def split (sep : α) : List α → List (List α) × List α
  | [] => ([], [])
  | b :: rest =>
      if b = sep then ([] :: (split sep rest).1, (split sep rest).2)
      else push b (split sep rest)

theorem split_sep (rest : List α) :
    split sep (sep :: rest) = ([] :: (split sep rest).1, (split sep rest).2) :=
  if_pos rfl

theorem split_cons (other : b ≠ sep) (rest : List α) :
    split sep (b :: rest) = push b (split sep rest) :=
  if_neg other

theorem split_of_notMem (absent : sep ∉ s) : split sep s = ([], s) := by
  induction s with
  | nil => rfl
  | cons b s ih =>
      obtain ⟨other, later⟩ := List.ne_and_not_mem_of_not_mem_cons absent
      rw [split_cons (Ne.symm other), ih later]
      rfl

/-- The first line. -/
theorem split_line (absent : sep ∉ line) (rest : List α) :
    split sep (line ++ sep :: rest) = (line :: (split sep rest).1, (split sep rest).2) := by
  induction line with
  | nil => exact split_sep rest
  | cons b line ih =>
      obtain ⟨other, later⟩ := List.ne_and_not_mem_of_not_mem_cons absent
      rw [List.cons_append, split_cons (Ne.symm other), ih later]
      rfl

theorem split_append (s t : List α) :
    split sep (s ++ t) =
      ((split sep s).1 ++ (split sep ((split sep s).2 ++ t)).1,
        (split sep ((split sep s).2 ++ t)).2) := by
  induction s with
  | nil => rfl
  | cons b s ih =>
      rw [List.cons_append]
      by_cases same : b = sep
      · subst same
        rw [split_sep, split_sep, ih]
        rfl
      · rw [split_cons same, split_cons same, ih]
        generalize split sep s = parts
        obtain ⟨lines, last⟩ := parts
        cases lines with
        | nil =>
            change push b (split sep (last ++ t)) = split sep (b :: (last ++ t))
            rw [split_cons same]
        | cons line lines => rfl

theorem notMem_last (s : List α) : sep ∉ (split sep s).2 := by
  induction s with
  | nil => exact List.not_mem_nil
  | cons b s ih =>
      by_cases same : b = sep
      · rw [same, split_sep]
        exact ih
      · rw [split_cons same]
        generalize split sep s = parts at ih
        obtain ⟨lines, last⟩ := parts
        cases lines with
        | nil => exact List.not_mem_cons_of_ne_of_not_mem (Ne.symm same) ih
        | cons line lines => exact ih

theorem split_fst_eq_nil_iff : (split sep s).1 = [] ↔ sep ∉ s := by
  constructor
  · intro none
    induction s with
    | nil => exact List.not_mem_nil
    | cons b s ih =>
        by_cases same : b = sep
        · rw [same, split_sep] at none
          cases none
        · rw [split_cons same] at none
          generalize parts : split sep s = cut at none
          obtain ⟨lines, last⟩ := cut
          cases lines with
          | nil =>
              have rest := ih (by rw [parts])
              exact List.not_mem_cons_of_ne_of_not_mem (Ne.symm same) rest
          | cons line lines => cases none
  · intro absent
    rw [split_of_notMem absent]

/-- What is left is at the end of the stream. -/
theorem last_suffix (s : List α) : (split sep s).2 <:+ s := by
  induction s with
  | nil => exact List.suffix_refl []
  | cons b s ih =>
      by_cases same : b = sep
      · rw [same, split_sep]
        exact ih.trans (List.suffix_cons _ _)
      · rw [split_cons same]
        generalize parts : split sep s = cut at ih
        obtain ⟨lines, last⟩ := cut
        cases lines with
        | nil =>
            have absent : sep ∉ s := split_fst_eq_nil_iff.mp (by rw [parts])
            rw [split_of_notMem absent] at parts
            cases parts
            exact List.suffix_refl _
        | cons line lines => exact ih.trans (List.suffix_cons _ _)

/-- The letters of all lines, with their separators. -/
def lineLength (lines : List (List α)) : Nat :=
  (lines.map fun line => line.length + 1).sum

theorem lineLength_split (s : List α) :
    lineLength (split sep s).1 + (split sep s).2.length = s.length := by
  induction s with
  | nil => rfl
  | cons b s ih =>
      rw [List.length_cons, ← ih]
      by_cases same : b = sep
      · rw [same, split_sep]
        simp only [lineLength, List.map_cons, List.sum_cons, List.length_nil]
        omega
      · rw [split_cons same]
        generalize split sep s = parts
        obtain ⟨lines, last⟩ := parts
        cases lines with
        | nil => rfl
        | cons line lines =>
            simp only [push, lineLength, List.map_cons, List.sum_cons, List.length_cons]
            omega

end StreamLines
