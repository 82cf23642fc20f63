import Mathlib.Algebra.BigOperators.Group.Finset.Piecewise
import Mathlib.Algebra.Order.BigOperators.Group.Finset
import Mathlib.Data.Fintype.Basic

/-!
# Sums over a table

A table is a function on a finite set of keys; a weight of its entries is
summed over the keys.  Replacing one entry changes the sum by the difference of
two weights, and keys of weight zero may be added.
-/

namespace Counting

variable {Key Entry : Type*} [DecidableEq Key] {keys : Finset Key}

theorem sum_update_add (weight : Entry → Nat) (table : Key → Entry) {key : Key}
    (member : key ∈ keys) (entry : Entry) :
    ∑ k ∈ keys, weight (Function.update table key entry k) + weight (table key) =
      ∑ k ∈ keys, weight (table k) + weight entry := by
  have others : ∑ k ∈ keys.erase key, weight (Function.update table key entry k) =
      ∑ k ∈ keys.erase key, weight (table k) := by
    apply Finset.sum_congr rfl
    intro other inside
    rw [Function.update_of_ne (Finset.ne_of_mem_erase inside)]
  rw [← Finset.add_sum_erase keys _ member, ← Finset.add_sum_erase keys _ member,
    others, Function.update_self]
  omega

theorem sum_insert_of_zero {weight : Key → Nat} {key : Key}
    (zero : weight key = 0) :
    ∑ k ∈ insert key keys, weight k = ∑ k ∈ keys, weight k := by
  by_cases member : key ∈ keys
  · rw [Finset.insert_eq_of_mem member]
  · rw [Finset.sum_insert member, zero, Nat.zero_add]

end Counting
