import Mathlib.Algebra.BigOperators.Fin
import Mathlib.Algebra.Order.BigOperators.Group.Finset

/-!
# Logs of tagged pieces

Writers cut their items into pieces of a bounded size and append them to one log,
each with the tag of its writer.  Those of one tag are in the order in which they
were appended, and the items of the log are those of all its pieces.
-/

namespace TaggedPieces

variable {Item : Type*}

/-- Cut a list into pieces of this size, the last of which may be shorter. -/
def pieces (size : Nat) (items : List Item) : List (List Item) :=
  if items = [] ∨ size = 0 then []
  else items.take size :: pieces size (items.drop size)
termination_by items.length
decreasing_by
  rename_i more
  have some := List.length_pos_of_ne_nil (not_or.mp more).1
  have positive := Nat.pos_of_ne_zero (not_or.mp more).2
  rw [List.length_drop]
  omega

theorem pieces_nil (size : Nat) : pieces size ([] : List Item) = [] := by
  rw [pieces, if_pos (.inl rfl)]

theorem pieces_of_ne_nil {size : Nat} {items : List Item} (some : items ≠ [])
    (positive : 0 < size) :
    pieces size items = items.take size :: pieces size (items.drop size) := by
  rw [pieces, if_neg (not_or.mpr ⟨some, positive.ne'⟩)]

/-- The pieces are the whole list. -/
theorem flatten_pieces {size : Nat} (positive : 0 < size) (items : List Item) :
    (pieces size items).flatten = items := by
  induction items using pieces.induct size with
  | case1 items stop =>
      rcases stop with rfl | zero
      · rw [pieces_nil]
        rfl
      · exact absurd zero positive.ne'
  | case2 items more ih =>
      rw [pieces_of_ne_nil (not_or.mp more).1 positive, List.flatten_cons, ih,
        List.take_append_drop]

/-- The pieces of one writer. -/
def ofTag (tag : Nat) (log : List (Nat × List Item)) : List (List Item) :=
  (log.filter fun piece => piece.1 == tag).map Prod.snd

/-- The items of the log. -/
def contents (log : List (Nat × List Item)) : List Item :=
  (log.map Prod.snd).flatten

variable {log : List (Nat × List Item)} {tag other : Nat} {piece : List Item}

theorem contents_append_singleton :
    contents (log ++ [(tag, piece)]) = contents log ++ piece := by
  simp [contents]

theorem ofTag_append_self :
    ofTag tag (log ++ [(tag, piece)]) = ofTag tag log ++ [piece] := by
  simp [ofTag]

theorem ofTag_append_of_ne (apart : tag ≠ other) :
    ofTag other (log ++ [(tag, piece)]) = ofTag other log := by
  simp [ofTag, apart]

theorem ofTag_eq_nil (unused : ∀ piece ∈ log, piece.1 ≠ tag) : ofTag tag log = [] := by
  rw [ofTag, List.filter_eq_nil_iff.mpr, List.map_nil]
  intro piece isHere
  simpa using unused piece isHere

/-- The items, counted by tags. -/
theorem length_contents {count : Nat} (tags : ∀ piece ∈ log, piece.1 < count) :
    (contents log).length = ∑ tag : Fin count, (ofTag tag log).flatten.length := by
  induction log using List.reverseRecOn with
  | nil => simp [contents, ofTag]
  | append_singleton log piece ih =>
      obtain ⟨tag, items⟩ := piece
      have before : ∀ piece ∈ log, piece.1 < count :=
        fun piece isHere => tags piece (List.mem_append_left _ isHere)
      have inside : tag < count := tags (tag, items) (by simp)
      have step (other : Fin count) :
          (ofTag other (log ++ [(tag, items)])).flatten.length =
            (ofTag other log).flatten.length +
              if other = ⟨tag, inside⟩ then items.length else 0 := by
        by_cases same : other = ⟨tag, inside⟩
        · rw [if_pos same, same, ofTag_append_self]
          simp
        · have apart : tag ≠ other.val := fun equal => same (Fin.ext equal.symm)
          rw [if_neg same, ofTag_append_of_ne apart, Nat.add_zero]
      rw [contents_append_singleton, List.length_append, ih before]
      simp only [step, Finset.sum_add_distrib, Finset.sum_ite_eq', Finset.mem_univ, if_true]

/-- A log in which no writer has more than its share. -/
theorem length_contents_le {shares : List (List Item)}
    (tags : ∀ piece ∈ log, piece.1 < shares.length)
    (bounded : ∀ (tag : Fin shares.length),
      (ofTag tag log).flatten.length ≤ (shares.get tag).length) :
    (contents log).length ≤ (shares.map List.length).sum := by
  rw [length_contents tags]
  refine (Finset.sum_le_sum fun tag _ => bounded tag).trans_eq ?_
  exact Fin.sum_univ_fun_getElem shares List.length

end TaggedPieces
