import Mathlib.Data.List.Nodup
import Mathlib.Data.List.Perm.Basic
import Mathlib.Logic.Function.Basic

/-!
# Lists in the order of their stamps

A list that moves an item to its front each time the item gets the latest stamp
stays in the order of the stamps, so that a search from the back finds the oldest
item of those that are searched for.
-/

namespace Recency

variable {α : Type*} {stamp : α → Nat} {order : List α} {a b : α} {now : Nat}

/-- Later stamps come first. -/
def Sorted (stamp : α → Nat) (order : List α) : Prop :=
  order.Pairwise fun a b => stamp b ≤ stamp a

/-- An item that gets the latest stamp moves to the front. -/
theorem Sorted.moveToFront [DecidableEq α] (sorted : Sorted stamp order) (nodup : order.Nodup)
    (bound : ∀ b ∈ order, stamp b ≤ now) :
    Sorted (Function.update stamp a now) (a :: order.erase a) := by
  have other {b : α} (isHere : b ∈ order.erase a) : b ≠ a :=
    (nodup.mem_erase_iff.mp isHere).1
  refine List.pairwise_cons.mpr ⟨?_, ?_⟩
  · intro b isHere
    rw [Function.update_self, Function.update_of_ne (other isHere)]
    exact bound b (List.mem_of_mem_erase isHere)
  · apply (sorted.sublist List.erase_sublist).imp_of_mem
    intro b c isHere isThere before
    rw [Function.update_of_ne (other isHere), Function.update_of_ne (other isThere)]
    exact before

/-- A search from the back finds the item with the least stamp that meets the test. -/
theorem Sorted.find?_reverse (sorted : Sorted stamp order) {test : α → Bool}
    (found : order.reverse.find? test = some a) (isHere : b ∈ order) (meets : test b = true) :
    stamp a ≤ stamp b := by
  obtain ⟨-, later, earlier, split, fail⟩ := List.find?_eq_some_iff_append.mp found
  have back : order = earlier.reverse ++ a :: later.reverse := by
    rw [← List.reverse_reverse order, split]
    simp
  rw [back] at isHere
  unfold Sorted at sorted
  rw [back, List.pairwise_append] at sorted
  rcases List.mem_append.mp isHere with isEarlier | isLater
  · exact sorted.2.2 b isEarlier a List.mem_cons_self
  · rcases List.mem_cons.mp isLater with rfl | isLater
    · exact Nat.le_refl _
    · have fails := fail b (List.mem_reverse.mp isLater)
      rw [meets] at fails
      cases fails

end Recency
