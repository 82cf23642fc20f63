import Mathlib.Data.Fin.Basic
import Mathlib.Data.Nat.ModEq
import Mathlib.Logic.Function.Basic

/-!
# Ring buffers with wrapping counters

A buffer of `size` cells with two machine-word counters, the number of
elements taken out and the number put in, each modulo `2 ^ width`.  When the
size divides `2 ^ width` the position of an element is its counter modulo the
size, whether or not the counters have wrapped around, and the buffer is a
queue.
-/

namespace RingBuffer

variable {α : Type*} {width size : Nat} [NeZero size]

/-- The number of elements between the two counters. -/
def count (nread nwrite : BitVec width) : Nat :=
  (nwrite - nread).toNat

/-- The cell that a counter stands for. -/
def cell (size : Nat) [NeZero size] (counter : BitVec width) : Fin size :=
  Fin.ofNat size counter.toNat

/-- The elements in the buffer, the oldest first. -/
def contents (data : Fin size → α) (nread nwrite : BitVec width) : List α :=
  (List.range (count nread nwrite)).map fun k =>
    data (cell size (nread + BitVec.ofNat width k))

theorem count_self (counter : BitVec width) : count counter counter = 0 := by
  simp [count]

theorem count_eq_zero_iff {nread nwrite : BitVec width} :
    count nread nwrite = 0 ↔ nread = nwrite := by
  rw [count, ← BitVec.toNat_zero, BitVec.toNat_inj, BitVec.sub_eq_iff_eq_add, BitVec.zero_add]
  exact eq_comm

theorem nwrite_eq {nread nwrite : BitVec width} :
    nwrite = nread + BitVec.ofNat width (count nread nwrite) := by
  rw [count, BitVec.ofNat_toNat, BitVec.setWidth_eq, BitVec.add_comm, BitVec.sub_add_cancel]

theorem count_add {nread : BitVec width} {n : Nat} (bound : n < 2 ^ width) :
    count nread (nread + BitVec.ofNat width n) = n := by
  rw [count, BitVec.add_comm, BitVec.add_sub_cancel, BitVec.toNat_ofNat,
    Nat.mod_eq_of_lt bound]

theorem eq_add_iff {nread nwrite : BitVec width} {n : Nat}
    (bound : n < 2 ^ width) :
    nwrite = nread + BitVec.ofNat width n ↔ count nread nwrite = n := by
  constructor
  · rintro rfl
    exact count_add bound
  · rintro rfl
    exact nwrite_eq

theorem ofNat_succ (n : Nat) :
    BitVec.ofNat width (n + 1) = BitVec.ofNat width n + BitVec.ofNat width 1 := by
  rw [BitVec.ofNat_add]

theorem count_push {nread nwrite : BitVec width}
    (room : count nread nwrite + 1 < 2 ^ width) :
    count nread (nwrite + BitVec.ofNat width 1) = count nread nwrite + 1 := by
  rw [← eq_add_iff room, ofNat_succ (count nread nwrite), ← BitVec.add_assoc,
    ← nwrite_eq]

theorem count_pop {nread nwrite : BitVec width}
    (nonempty : nread ≠ nwrite) :
    count (nread + BitVec.ofNat width 1) nwrite + 1 = count nread nwrite := by
  have positive : 0 < count nread nwrite :=
    Nat.pos_of_ne_zero fun none => nonempty (count_eq_zero_iff.mp none)
  obtain ⟨n, counted⟩ := Nat.exists_eq_succ_of_ne_zero (Nat.ne_of_gt positive)
  have bound : count nread nwrite < 2 ^ width := BitVec.isLt _
  have rest : count (nread + BitVec.ofNat width 1) nwrite = n := by
    rw [← eq_add_iff (by omega), BitVec.add_assoc, BitVec.add_comm (BitVec.ofNat width 1),
      ← ofNat_succ, ← Nat.succ_eq_add_one, ← counted]
    exact nwrite_eq
  rw [rest, counted]

theorem cell_add (divides : size ∣ 2 ^ width) (nread : BitVec width) (k : Nat) :
    (cell size (nread + BitVec.ofNat width k)).val =
      (nread.toNat + k) % size := by
  simp only [cell, Fin.val_ofNat, BitVec.toNat_add, BitVec.toNat_ofNat]
  rw [Nat.mod_mod_of_dvd _ divides, Nat.add_mod, Nat.mod_mod_of_dvd _ divides,
    ← Nat.add_mod]

/-- Fewer elements than cells apart, two counters stand for different cells. -/
theorem cell_ne (divides : size ∣ 2 ^ width) (nread : BitVec width) {j k : Nat}
    (less : j < k) (near : k < j + size) :
    cell size (nread + BitVec.ofNat width j) ≠
      cell size (nread + BitVec.ofNat width k) := by
  intro same
  have congruent := congrArg Fin.val same
  rw [cell_add divides, cell_add divides] at congruent
  have modEq : nread.toNat + j ≡ nread.toNat + k [MOD size] := congruent
  have divides' := (Nat.modEq_iff_dvd' (by omega)).mp modEq
  have small : nread.toNat + k - (nread.toNat + j) < size := by omega
  have zero := Nat.eq_zero_of_dvd_of_lt divides' small
  omega

/-- Putting an element in at the back. -/
theorem contents_push (divides : size ∣ 2 ^ width) {data : Fin size → α}
    {nread nwrite : BitVec width} (room : count nread nwrite < size)
    (fits : count nread nwrite + 1 < 2 ^ width) (value : α) :
    contents (Function.update data (cell size nwrite) value) nread
        (nwrite + BitVec.ofNat width 1) =
      contents data nread nwrite ++ [value] := by
  rw [contents, count_push fits, List.range_succ, List.map_append, contents]
  congr 1
  · apply List.map_congr_left
    intro k member
    apply Function.update_of_ne
    have before : k < count nread nwrite := List.mem_range.mp member
    have apart := cell_ne divides nread before (by omega)
    rwa [← nwrite_eq] at apart
  · rw [List.map_singleton, ← nwrite_eq, Function.update_self]

/-- Taking the element at the front out. -/
theorem contents_pop {data : Fin size → α} {nread nwrite : BitVec width}
    (nonempty : nread ≠ nwrite) :
    contents data nread nwrite =
      data (cell size nread) :: contents data (nread + BitVec.ofNat width 1) nwrite := by
  rw [contents, ← count_pop nonempty, List.range_succ_eq_map, List.map_cons,
    List.map_map, contents]
  congr 1
  · simp
  · apply List.map_congr_left
    intro k _
    simp only [Function.comp_apply]
    rw [Nat.succ_eq_add_one, ofNat_succ, BitVec.add_assoc, BitVec.add_comm (BitVec.ofNat width k)]

/-- Taking the last element back. -/
theorem count_back {nread nwrite : BitVec width} (nonempty : nwrite ≠ nread) :
    count nread (nwrite - BitVec.ofNat width 1) + 1 = count nread nwrite := by
  have positive : 0 < count nread nwrite :=
    Nat.pos_of_ne_zero fun none => nonempty (count_eq_zero_iff.mp none).symm
  have bound : count nread nwrite < 2 ^ width := BitVec.isLt _
  obtain ⟨n, counted⟩ := Nat.exists_eq_succ_of_ne_zero (Nat.ne_of_gt positive)
  have back : nwrite - BitVec.ofNat width 1 = nread + BitVec.ofNat width n := by
    have whole : nwrite = nread + BitVec.ofNat width (count nread nwrite) := nwrite_eq
    rw [counted, Nat.succ_eq_add_one, ofNat_succ, ← BitVec.add_assoc] at whole
    rw [whole, BitVec.add_sub_cancel]
  rw [back, count_add (by omega), counted]

/-- The counters lie one behind the other. -/
theorem count_trans {first middle last : BitVec width}
    (order : count first middle ≤ count first last) :
    count first middle + count middle last = count first last := by
  have bound : count first last < 2 ^ width := BitVec.isLt _
  obtain ⟨n, sum⟩ := Nat.exists_eq_add_of_le order
  have lastEq : last = middle + BitVec.ofNat width n := by
    have start : middle = first + BitVec.ofNat width (count first middle) := nwrite_eq
    have finish : last = first + BitVec.ofNat width (count first last) := nwrite_eq
    rw [sum, BitVec.ofNat_add, ← BitVec.add_assoc, ← start] at finish
    exact finish
  have rest : count middle last = n := by
    rw [lastEq]
    exact count_add (by omega)
  omega

theorem contents_self (data : Fin size → α) (counter : BitVec width) :
    contents data counter counter = [] := by
  rw [contents, count_self]
  rfl

theorem length_contents (data : Fin size → α) (nread nwrite : BitVec width) :
    (contents data nread nwrite).length = count nread nwrite := by
  rw [contents, List.length_map, List.length_range]

/-- The elements up to a middle counter, and those behind it. -/
theorem contents_append {data : Fin size → α} {first middle last : BitVec width}
    (order : count first middle ≤ count first last) :
    contents data first last = contents data first middle ++ contents data middle last := by
  have start : middle = first + BitVec.ofNat width (count first middle) := nwrite_eq
  simp only [contents]
  rw [← count_trans order, List.range_add, List.map_append, List.map_map]
  congr 1
  refine List.map_congr_left fun k _ => ?_
  simp only [Function.comp_apply]
  rw [BitVec.ofNat_add, ← BitVec.add_assoc, ← start]

/-- A store behind the elements leaves them alone. -/
theorem contents_update (divides : size ∣ 2 ^ width) {data : Fin size → α}
    {first middle last : BitVec width} (order : count first middle ≤ count first last)
    (room : count first last < size) (value : α) :
    contents (Function.update data (cell size last) value) first middle =
      contents data first middle := by
  refine List.map_congr_left fun k member => Function.update_of_ne ?_ _ _
  have before : k < count first middle := List.mem_range.mp member
  have apart := cell_ne divides first (by omega : k < count first last) (by omega)
  rwa [← nwrite_eq] at apart

end RingBuffer
