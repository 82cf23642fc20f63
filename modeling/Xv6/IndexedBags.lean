import Mathlib.Algebra.BigOperators.Group.Finset.Basic
import Mathlib.Algebra.Order.Group.Multiset
import Mathlib.Data.Multiset.UnionInter
import Mathlib.Tactic.Abel

/-!
# Bags indexed by a finite set

The resources of a structure are often a sum of bags, one for each of its
places.  When the whole sum has no duplicates, a resource is at one place only;
when one place changes, the sum changes by what that place gains and loses.
-/

namespace IndexedBags

variable {ι α : Type*} [DecidableEq ι] {s : Finset ι} {bag bag' : ι → Multiset α}

/-- A resource that occurs once in the sum is at one place. -/
theorem eq_of_nodup_sum (nodup : (∑ i ∈ s, bag i).Nodup) {i j : ι} {a : α}
    (iMem : i ∈ s) (jMem : j ∈ s) (atI : a ∈ bag i) (atJ : a ∈ bag j) :
    i = j := by
  by_contra differ
  rw [← Finset.add_sum_erase s bag iMem] at nodup
  have apart := (Multiset.nodup_add.mp nodup).2.2
  refine Multiset.disjoint_left.mp apart atI ?_
  exact Multiset.mem_sum.mpr ⟨j, Finset.mem_erase.mpr ⟨Ne.symm differ, jMem⟩, atJ⟩

/-- One place changes. -/
theorem sum_change {i : ι} (iMem : i ∈ s)
    (same : ∀ j ∈ s, j ≠ i → bag' j = bag j) :
    ∑ j ∈ s, bag' j + bag i = ∑ j ∈ s, bag j + bag' i := by
  rw [← Finset.add_sum_erase s bag iMem, ← Finset.add_sum_erase s bag' iMem,
    Finset.sum_congr rfl fun j jMem =>
      same j (Finset.mem_of_mem_erase jMem) (Finset.ne_of_mem_erase jMem)]
  abel

/-- Places that hold at most one resource, in the order of their indices. -/
theorem sum_range_option (place : ℕ → Option α) (n : ℕ) :
    ∑ i ∈ Finset.range n, (place i).elim (0 : Multiset α) (fun a => {a}) =
      ((List.range n).filterMap place : List α) := by
  induction n with
  | zero => rfl
  | succ n ih =>
      rw [Finset.sum_range_succ, ih, List.range_succ, List.filterMap_append,
        ← Multiset.coe_add]
      cases found : place n <;> simp [found]

end IndexedBags
