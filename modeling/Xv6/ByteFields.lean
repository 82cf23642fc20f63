import Mathlib.Data.Fin.Basic
import Mathlib.Tactic.IntervalCases

/-!
# Little-endian fields in byte arrays

A fixed-size byte array is read and written through one-, two- and four-byte
little-endian fields at byte offsets, and through single bits.  Fields that do
not overlap are independent.
-/

namespace ByteFields

/-- An array of `n` bytes. -/
abbrev Bytes (n : Nat) := Fin n → UInt8

variable {n : Nat}

/-- The byte at an offset; offsets past the end read as zero. -/
def getByte (b : Bytes n) (offset : Nat) : Nat :=
  if inside : offset < n then (b ⟨offset, inside⟩).toNat else 0

/-- Store the low byte of `value` at an offset. -/
def setByte (b : Bytes n) (offset value : Nat) : Bytes n :=
  fun i => if i.val = offset then UInt8.ofNat value else b i

theorem getByte_lt (b : Bytes n) (offset : Nat) : getByte b offset < 256 := by
  unfold getByte
  split
  · exact UInt8.toNat_lt _
  · omega

theorem getByte_setByte (b : Bytes n) (offset value at' : Nat)
    (inside : offset < n) :
    getByte (setByte b offset value) at' =
      if at' = offset then value % 256 else getByte b at' := by
  unfold getByte setByte
  by_cases same : at' = offset
  · subst same
    simp [inside]
  · simp [same]

theorem getByte_setByte_of_ne (b : Bytes n) {offset at' : Nat} (value : Nat)
    (inside : offset < n) (differ : at' ≠ offset) :
    getByte (setByte b offset value) at' = getByte b at' := by
  rw [getByte_setByte _ _ _ _ inside, if_neg differ]

/-- The two-byte field at an offset. -/
def getHalf (b : Bytes n) (offset : Nat) : Nat :=
  getByte b offset + 256 * getByte b (offset + 1)

/-- Store the low two bytes of `value` at an offset. -/
def setHalf (b : Bytes n) (offset value : Nat) : Bytes n :=
  setByte (setByte b offset value) (offset + 1) (value / 256)

/-- The four-byte field at an offset. -/
def getWord (b : Bytes n) (offset : Nat) : Nat :=
  getHalf b offset + 65536 * getHalf b (offset + 2)

/-- Store the low four bytes of `value` at an offset. -/
def setWord (b : Bytes n) (offset value : Nat) : Bytes n :=
  setHalf (setHalf b offset value) (offset + 2) (value / 65536)

theorem getHalf_lt (b : Bytes n) (offset : Nat) :
    getHalf b offset < 65536 := by
  have low := getByte_lt b offset
  have high := getByte_lt b (offset + 1)
  unfold getHalf
  omega

theorem getWord_lt (b : Bytes n) (offset : Nat) :
    getWord b offset < 4294967296 := by
  have low := getHalf_lt b offset
  have high := getHalf_lt b (offset + 2)
  unfold getWord
  omega

theorem getByte_setHalf_of_outside (b : Bytes n) {offset at' : Nat}
    (value : Nat) (room : offset + 2 ≤ n)
    (outside : at' < offset ∨ offset + 2 ≤ at') :
    getByte (setHalf b offset value) at' = getByte b at' := by
  unfold setHalf
  rw [getByte_setByte _ _ _ _ (by omega), if_neg (by omega),
    getByte_setByte _ _ _ _ (by omega), if_neg (by omega)]

theorem getByte_setWord_of_outside (b : Bytes n) {offset at' : Nat}
    (value : Nat) (room : offset + 4 ≤ n)
    (outside : at' < offset ∨ offset + 4 ≤ at') :
    getByte (setWord b offset value) at' = getByte b at' := by
  unfold setWord
  rw [getByte_setHalf_of_outside _ _ (by omega) (by omega),
    getByte_setHalf_of_outside _ _ (by omega) (by omega)]

theorem getByte_setHalf (b : Bytes n) {offset k : Nat} (value : Nat)
    (room : offset + 2 ≤ n) (inside : k < 2) :
    getByte (setHalf b offset value) (offset + k) = value / 256 ^ k % 256 := by
  unfold setHalf
  interval_cases k
  · rw [getByte_setByte _ _ _ _ (by omega), if_neg (by omega),
      getByte_setByte _ _ _ _ (by omega), if_pos (Nat.add_zero _)]
    omega
  · rw [getByte_setByte _ _ _ _ (by omega), if_pos rfl]
    omega

theorem getByte_setWord (b : Bytes n) {offset k : Nat} (value : Nat)
    (room : offset + 4 ≤ n) (inside : k < 4) :
    getByte (setWord b offset value) (offset + k) = value / 256 ^ k % 256 := by
  unfold setWord
  by_cases low : k < 2
  · rw [getByte_setHalf_of_outside _ _ (by omega) (by omega),
      getByte_setHalf _ _ (by omega) low]
  · obtain ⟨j, rfl⟩ : ∃ j, k = 2 + j := ⟨k - 2, by omega⟩
    rw [← Nat.add_assoc, getByte_setHalf _ _ (by omega) (by omega), Nat.div_div_eq_div_mul,
      Nat.pow_add]

theorem getHalf_setHalf (b : Bytes n) {offset : Nat} (value : Nat)
    (room : offset + 2 ≤ n) :
    getHalf (setHalf b offset value) offset = value % 65536 := by
  unfold getHalf setHalf
  rw [getByte_setByte _ _ _ _ (by omega), if_neg (by omega),
    getByte_setByte _ _ _ _ (by omega), if_pos rfl,
    getByte_setByte _ _ _ _ (by omega), if_pos rfl]
  omega

theorem getHalf_setHalf_of_disjoint (b : Bytes n) {offset at' : Nat}
    (value : Nat) (room : offset + 2 ≤ n)
    (disjoint : at' + 2 ≤ offset ∨ offset + 2 ≤ at') :
    getHalf (setHalf b offset value) at' = getHalf b at' := by
  unfold getHalf
  rw [getByte_setHalf_of_outside _ _ room (by omega),
    getByte_setHalf_of_outside _ _ room (by omega)]

theorem getHalf_setWord_of_disjoint (b : Bytes n) {offset at' : Nat}
    (value : Nat) (room : offset + 4 ≤ n)
    (disjoint : at' + 2 ≤ offset ∨ offset + 4 ≤ at') :
    getHalf (setWord b offset value) at' = getHalf b at' := by
  unfold getHalf
  rw [getByte_setWord_of_outside _ _ room (by omega),
    getByte_setWord_of_outside _ _ room (by omega)]

theorem getWord_setWord (b : Bytes n) {offset : Nat} (value : Nat)
    (room : offset + 4 ≤ n) :
    getWord (setWord b offset value) offset = value % 4294967296 := by
  unfold getWord setWord
  rw [getHalf_setHalf_of_disjoint _ _ (by omega) (by omega),
    getHalf_setHalf _ _ (by omega), getHalf_setHalf _ _ (by omega)]
  omega

theorem getWord_setWord_of_disjoint (b : Bytes n) {offset at' : Nat}
    (value : Nat) (room : offset + 4 ≤ n)
    (disjoint : at' + 4 ≤ offset ∨ offset + 4 ≤ at') :
    getWord (setWord b offset value) at' = getWord b at' := by
  unfold getWord
  rw [getHalf_setWord_of_disjoint _ _ room (by omega),
    getHalf_setWord_of_disjoint _ _ room (by omega)]

/-- A field depends only on its own bytes. -/
theorem getWord_congr {b c : Bytes n} {offset : Nat}
    (same : ∀ k, offset ≤ k → k < offset + 4 → getByte b k = getByte c k) :
    getWord b offset = getWord c offset := by
  unfold getWord getHalf
  rw [same offset (by omega) (by omega),
    same (offset + 1) (by omega) (by omega),
    same (offset + 2) (by omega) (by omega),
    same (offset + 2 + 1) (by omega) (by omega)]

/-- A bit, counted from the low bit of the first byte. -/
def getBit (b : Bytes n) (k : Nat) : Bool :=
  (getByte b (k / 8)).testBit (k % 8)

/-- Set a bit: `|= m` on its byte. -/
def markBit (b : Bytes n) (k : Nat) : Bytes n :=
  setByte b (k / 8) (getByte b (k / 8) ||| 1 <<< (k % 8))

/-- Clear a bit: `&= ~m` on its byte. -/
def clearBit (b : Bytes n) (k : Nat) : Bytes n :=
  setByte b (k / 8) (getByte b (k / 8) &&& (255 ^^^ 1 <<< (k % 8)))

theorem testBit_mask (k j : Nat) : (1 <<< k).testBit j = decide (k = j) := by
  rw [Nat.one_shiftLeft, Nat.testBit_two_pow]

theorem mask_lt (k : Nat) : 1 <<< (k % 8) < 2 ^ 8 := by
  rw [Nat.one_shiftLeft]
  exact Nat.pow_lt_pow_right (by decide) (Nat.mod_lt k (by decide))

/-- Two bits of one byte are the same bit when they have the same position in
it. -/
theorem eq_of_div_eq_of_mod_eq {k j : Nat} (byte : k / 8 = j / 8)
    (position : k % 8 = j % 8) : k = j := by
  omega

theorem getBit_markBit (b : Bytes n) {k : Nat} (inside : k / 8 < n) (j : Nat) :
    getBit (markBit b k) j = (decide (j = k) || getBit b j) := by
  unfold getBit markBit
  rw [getByte_setByte _ _ _ _ inside]
  split
  · rename_i byte
    have small : getByte b (k / 8) ||| 1 <<< (k % 8) < 256 :=
      Nat.or_lt_two_pow (getByte_lt b _) (mask_lt k)
    rw [Nat.mod_eq_of_lt small, Nat.testBit_or, testBit_mask, byte, Bool.or_comm]
    congr 1
    refine decide_eq_decide.mpr ⟨fun position => ?_, fun same => ?_⟩
    · exact eq_of_div_eq_of_mod_eq byte position.symm
    · rw [same]
  · rename_i byte
    have other : j ≠ k := fun same => byte (by rw [same])
    simp [other]

theorem getBit_clearBit (b : Bytes n) {k : Nat} (inside : k / 8 < n) (j : Nat) :
    getBit (clearBit b k) j = (!decide (j = k) && getBit b j) := by
  unfold getBit clearBit
  rw [getByte_setByte _ _ _ _ inside]
  split
  · rename_i byte
    have small : getByte b (k / 8) &&& (255 ^^^ 1 <<< (k % 8)) < 256 :=
      Nat.lt_of_le_of_lt Nat.and_le_left (getByte_lt b _)
    have low : (255 : Nat).testBit (j % 8) = true := by
      have position := Nat.mod_lt j (by decide : 0 < 8)
      interval_cases j % 8 <;> rfl
    rw [Nat.mod_eq_of_lt small, Nat.testBit_and, Nat.testBit_xor, testBit_mask, low,
      byte, Bool.true_xor, Bool.and_comm]
    congr 2
    refine decide_eq_decide.mpr ⟨fun position => ?_, fun same => ?_⟩
    · exact eq_of_div_eq_of_mod_eq byte position.symm
    · rw [same]
  · rename_i byte
    have other : j ≠ k := fun same => byte (by rw [same])
    simp [other]

theorem getWord_zero (offset : Nat) : getWord (fun _ : Fin n => 0) offset = 0 := by
  simp [getWord, getHalf, getByte]

end ByteFields
