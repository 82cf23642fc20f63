import Mathlib.Algebra.BigOperators.Group.List.Basic
import Mathlib.Algebra.Order.BigOperators.Group.List
import Mathlib.Data.Nat.ModEq

/-!
# Sums with end-around carry

Numbers up to `top` are added with an end-around carry: what passes `top` is taken
off again, with one added.  The result represents the sum modulo `top`, where zero
and `top` are both zero, and it is zero only for summands that are all zero.  So a
list with its complemented sum in the place of a zero sums to `top`.
-/

namespace OnesComplement

/-- Addition with end-around carry. -/
def add (top a b : Nat) : Nat :=
  if a + b > top then a + b - top else a + b

/-- The sum of a list with end-around carry. -/
def sum (top : Nat) (words : List Nat) : Nat :=
  words.foldl (add top) 0

variable {top a b : Nat}

theorem add_le (left : a ≤ top) (right : b ≤ top) : add top a b ≤ top := by
  unfold add
  split <;> omega

theorem add_modEq (top a b : Nat) : add top a b ≡ a + b [MOD top] := by
  unfold add
  split
  · rename_i carry
    exact (Nat.ModEq.add_right_cancel' top (by
      rw [Nat.sub_add_cancel (by omega)]
      exact (Nat.add_modEq_right).symm))
  · rfl

theorem add_eq_zero (top a b : Nat) : add top a b = 0 ↔ a = 0 ∧ b = 0 := by
  unfold add
  split <;> omega

theorem foldl_le {words : List Nat} (small : ∀ word ∈ words, word ≤ top)
    (start : a ≤ top) : words.foldl (add top) a ≤ top := by
  induction words generalizing a with
  | nil => exact start
  | cons word rest ih =>
      obtain ⟨first, others⟩ := List.forall_mem_cons.mp small
      exact ih others (add_le start first)

theorem foldl_modEq (top a : Nat) (words : List Nat) :
    words.foldl (add top) a ≡ a + words.sum [MOD top] := by
  induction words generalizing a with
  | nil => rfl
  | cons word rest ih =>
      rw [List.foldl_cons, List.sum_cons, ← Nat.add_assoc]
      exact (ih _).trans ((add_modEq top a word).add_right _)

theorem foldl_eq_zero (top a : Nat) (words : List Nat) :
    words.foldl (add top) a = 0 ↔ a + words.sum = 0 := by
  induction words generalizing a with
  | nil => rfl
  | cons word rest ih =>
      rw [List.foldl_cons, List.sum_cons, ih]
      have carried := add_eq_zero top a word
      omega

theorem sum_le {words : List Nat} (small : ∀ word ∈ words, word ≤ top) :
    sum top words ≤ top :=
  foldl_le small (Nat.zero_le top)

theorem sum_modEq (top : Nat) (words : List Nat) : sum top words ≡ words.sum [MOD top] := by
  have whole := foldl_modEq top 0 words
  rwa [Nat.zero_add] at whole

theorem sum_eq_zero (top : Nat) (words : List Nat) : sum top words = 0 ↔ words.sum = 0 := by
  have whole := foldl_eq_zero top 0 words
  rwa [Nat.zero_add] at whole

/-- The sum has all its digits set exactly if it represents zero and some summand is
not zero. -/
theorem sum_eq_top_iff {words : List Nat} (positive : 0 < top)
    (small : ∀ word ∈ words, word ≤ top) :
    sum top words = top ↔ words.sum ≠ 0 ∧ words.sum ≡ 0 [MOD top] := by
  have bound := sum_le small
  have same := sum_modEq top words
  have zero := sum_eq_zero top words
  constructor
  · intro full
    refine ⟨fun isZero => ?_, ?_⟩
    · have := zero.mpr isZero
      omega
    · rw [full] at same
      exact same.symm.trans (Nat.modEq_zero_iff_dvd.mpr (dvd_refl top))
  · rintro ⟨notZero, divisible⟩
    have multiple := Nat.modEq_zero_iff_dvd.mp (same.trans divisible)
    have positiveSum : 0 < sum top words :=
      Nat.pos_of_ne_zero fun isZero => notZero (zero.mp isZero)
    exact Nat.le_antisymm bound (Nat.le_of_dvd positiveSum multiple)

/-- A list with the complement of its sum in the place of a zero has all digits set. -/
theorem sum_complement {left right : List Nat} (positive : 0 < top)
    (smallLeft : ∀ word ∈ left, word ≤ top) (smallRight : ∀ word ∈ right, word ≤ top) :
    sum top (left ++ (top - sum top (left ++ 0 :: right)) :: right) = top := by
  have smallZero : ∀ word ∈ left ++ 0 :: right, word ≤ top :=
    List.forall_mem_append.mpr
      ⟨smallLeft, List.forall_mem_cons.mpr ⟨Nat.zero_le top, smallRight⟩⟩
  have bound := sum_le smallZero
  have same := sum_modEq top (left ++ 0 :: right)
  have zero := sum_eq_zero top (left ++ 0 :: right)
  have smallFull : ∀ word ∈ left ++ (top - sum top (left ++ 0 :: right)) :: right,
      word ≤ top :=
    List.forall_mem_append.mpr
      ⟨smallLeft, List.forall_mem_cons.mpr ⟨Nat.sub_le _ _, smallRight⟩⟩
  rw [sum_eq_top_iff positive smallFull]
  generalize sum top (left ++ 0 :: right) = checked at *
  rw [List.sum_append, List.sum_cons] at *
  refine ⟨by omega, ?_⟩
  calc left.sum + (top - checked + right.sum)
      = left.sum + (0 + right.sum) + (top - checked) := by omega
    _ ≡ checked + (top - checked) [MOD top] := same.symm.add_right _
    _ = top := by omega
    _ ≡ 0 [MOD top] := Nat.modEq_zero_iff_dvd.mpr (dvd_refl top)

/-! ## Words of two octets -/

/-- The octets in pairs, the first of each as the high one.  A last octet without a
partner is padded with zero. -/
def words (base : Nat) : List Nat → List Nat
  | [] => []
  | [high] => [base * high]
  | high :: low :: rest => (base * high + low) :: words base rest

theorem words_append {base : Nat} {n : Nat} {left : List Nat} (even : left.length = 2 * n)
    (right : List Nat) : words base (left ++ right) = words base left ++ words base right := by
  induction n generalizing left with
  | zero =>
      rw [List.eq_nil_of_length_eq_zero even]
      rfl
  | succ n ih =>
      match left, even with
      | high :: low :: rest, even =>
          have length : rest.length = 2 * n := by
            rw [List.length_cons, List.length_cons] at even
            omega
          simp only [List.cons_append, words, ih length]

theorem words_map_range (base : Nat) (octet : Nat → Nat) (n : Nat) :
    words base ((List.range (2 * n)).map octet) =
      (List.range n).map fun i => base * octet (2 * i) + octet (2 * i + 1) := by
  induction n with
  | zero => rfl
  | succ n ih =>
      have length : ((List.range (2 * n)).map octet).length = 2 * n := by
        rw [List.length_map, List.length_range]
      rw [Nat.mul_succ, List.range_succ, List.range_succ, List.append_assoc, List.map_append,
        words_append length, ih, List.range_succ, List.map_append, List.map_append]
      rfl

/-- The words are below the square of the base. -/
theorem words_lt {base : Nat} {octets : List Nat} (small : ∀ octet ∈ octets, octet < base) :
    ∀ word ∈ words base octets, word < base * base := by
  induction octets using words.induct with
  | case1 => exact nofun
  | case2 high =>
      intro word isWord
      have below := small high List.mem_cons_self
      rw [words, List.mem_singleton] at isWord
      rw [isWord]
      exact Nat.mul_lt_mul_of_pos_left below (by omega)
  | case3 high low rest ih =>
      obtain ⟨first, others⟩ := List.forall_mem_cons.mp small
      obtain ⟨second, others⟩ := List.forall_mem_cons.mp others
      rw [words]
      refine List.forall_mem_cons.mpr ⟨?_, ih others⟩
      calc base * high + low < base * high + base := Nat.add_lt_add_left second _
        _ = base * (high + 1) := (Nat.mul_succ _ _).symm
        _ ≤ base * base := Nat.mul_le_mul_left _ first

end OnesComplement
