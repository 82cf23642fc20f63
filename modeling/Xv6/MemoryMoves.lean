import Mathlib.Data.BitVec
import Mathlib.Logic.Function.Basic
import Mathlib.Tactic.Ring

/-!
# Moving memory

The kernel's `memmove` copies from the last byte on when the target starts inside
the source, and from the first byte on otherwise.  The `memmove` of the user library
always starts with the first byte, and takes a signed length.  Where the target
starts `k` bytes into the source, the user library therefore fills it with the first
`k` bytes of the source over and over, which is what was there only if the source
repeats itself with that period.
-/

namespace Xv6.Memory

/-- The bytes of a flat memory. -/
abbrev Image := BitVec 32 → UInt8

/-- `while(n-- > 0) *d++ = *s++;` -/
def copyUp : Nat → BitVec 32 → BitVec 32 → Image → Image
  | 0, _, _, memory => memory
  | n + 1, d, s, memory => copyUp n (d + 1) (s + 1) (Function.update memory d (memory s))

/-- `while(n-- > 0) *--d = *--s;` -/
def copyDown : Nat → BitVec 32 → BitVec 32 → Image → Image
  | 0, _, _, memory => memory
  | n + 1, d, s, memory =>
      copyDown n (d - 1) (s - 1) (Function.update memory (d - 1) (memory (s - 1)))

/-- `memmove` of `string.c`, with what it returns. -/
def kernelMemmove (dst src n : BitVec 32) (memory : Image) : BitVec 32 × Image :=
  if src < dst ∧ src + n > dst then (dst, copyDown n.toNat (dst + n) (src + n) memory)
  else (dst, copyUp n.toNat dst src memory)

/-- `memmove` of `ulib.c`, whose length is an `int`. -/
def userMemmove (vdst vsrc n : BitVec 32) (memory : Image) : BitVec 32 × Image :=
  (vdst, copyUp n.toInt.toNat vdst vsrc memory)

/-- The address so many bytes behind another. -/
def behind (address : BitVec 32) (i : Nat) : BitVec 32 := address + BitVec.ofNat 32 i

/-- The bytes from an address on do not go past the end of the address space. -/
def Fits (address : BitVec 32) (n : Nat) : Prop := address.toNat + n ≤ 2 ^ 32

instance (address : BitVec 32) (n : Nat) : Decidable (Fits address n) :=
  inferInstanceAs (Decidable (_ ≤ _))

/-- The target holds what the source held, and nothing else has changed. -/
structure Moved (old new : Image) (dst src : BitVec 32) (n : Nat) : Prop where
  copied : ∀ i < n, new (behind dst i) = old (behind src i)
  same : ∀ a, (∀ i < n, a ≠ behind dst i) → new a = old a

/-! ## Addresses -/

theorem behind_zero (address : BitVec 32) : behind address 0 = address :=
  BitVec.add_zero address

theorem behind_succ (address : BitVec 32) (i : Nat) :
    behind (address + 1) i = behind address (i + 1) := by
  unfold behind
  rw [BitVec.ofNat_add, BitVec.add_assoc, BitVec.add_comm 1]
  rfl

theorem behind_sub (address : BitVec 32) (i : Nat) :
    behind address (i + 1) - 1 = behind address i := by
  unfold behind
  rw [BitVec.ofNat_add, ← BitVec.add_assoc]
  exact BitVec.add_sub_cancel _ _

theorem toNat_behind {address : BitVec 32} {n i : Nat} (fits : Fits address n) (inside : i < n) :
    (behind address i).toNat = address.toNat + i := by
  unfold Fits at fits
  rw [behind, BitVec.toNat_add, BitVec.toNat_ofNat, Nat.mod_eq_of_lt (by omega : i < 2 ^ 32),
    Nat.mod_eq_of_lt (by omega)]

/-- Addresses in two ranges are equal where their numbers are. -/
theorem behind_inj {a b : BitVec 32} {m n i j : Nat} (fitsA : Fits a m) (fitsB : Fits b n)
    (insideA : i < m) (insideB : j < n) :
    behind a i = behind b j ↔ a.toNat + i = b.toNat + j := by
  rw [← BitVec.toNat_inj, toNat_behind fitsA insideA, toNat_behind fitsB insideB]

/-- A move has one result. -/
theorem Moved.unique {old new new' : Image} {dst src : BitVec 32} {n : Nat}
    (moved : Moved old new dst src n) (moved' : Moved old new' dst src n) : new = new' := by
  ext1 a
  by_cases target : ∃ i < n, a = behind dst i
  · obtain ⟨i, inside, rfl⟩ := target
    rw [moved.copied i inside, moved'.copied i inside]
  · push Not at target
    rw [moved.same a target, moved'.same a target]

/-! ## From the first byte on -/

variable {memory : Image} {d s : BitVec 32} {n k : Nat}

theorem copyUp_succ (n : Nat) (d s : BitVec 32) (memory : Image) :
    copyUp (n + 1) d s memory =
      Function.update (copyUp n d s memory) (behind d n) (copyUp n d s memory (behind s n)) := by
  induction n generalizing d s memory with
  | zero => rw [behind_zero, behind_zero]; rfl
  | succ n ih =>
      rw [copyUp, ih, behind_succ, behind_succ]
      rfl

theorem copyUp_same (a : BitVec 32) (outside : ∀ i < n, a ≠ behind d i) :
    copyUp n d s memory a = memory a := by
  induction n with
  | zero => rfl
  | succ n ih =>
      rw [copyUp_succ, Function.update_of_ne (outside n (by omega))]
      exact ih fun i inside => outside i (by omega)

theorem Fits.mono {address : BitVec 32} {m : Nat} (fits : Fits address n) (le : m ≤ n) :
    Fits address m := by
  unfold Fits at *
  omega

/-- A target that starts no later than the source receives the source. -/
theorem copyUp_back (fitsD : Fits d n) (fitsS : Fits s n) (back : d.toNat ≤ s.toNat) :
    ∀ i < n, copyUp n d s memory (behind d i) = memory (behind s i) := by
  induction n with
  | zero => intro i inside; omega
  | succ n ih =>
      intro i inside
      rw [copyUp_succ]
      by_cases last : i = n
      · subst last
        rw [Function.update_self, copyUp_same]
        intro j before
        rw [Ne, behind_inj fitsS fitsD (by omega) (by omega)]
        omega
      · have differ : behind d i ≠ behind d n := by
          rw [Ne, behind_inj fitsD fitsD (by omega) (by omega)]
          omega
        rw [Function.update_of_ne differ]
        exact ih (fitsD.mono (by omega)) (fitsS.mono (by omega)) i (by omega)

/-- A target that starts `k` bytes into the source receives its first `k` bytes over
and over. -/
theorem copyUp_ahead (fitsD : Fits d n) (fitsS : Fits s n) (positive : 0 < k)
    (ahead : s.toNat + k = d.toNat) :
    ∀ i < n, copyUp n d s memory (behind d i) = memory (behind s (i % k)) := by
  induction n with
  | zero => intro i inside; omega
  | succ n ih =>
      intro i inside
      have before := ih (fitsD.mono (by omega)) (fitsS.mono (by omega))
      rw [copyUp_succ]
      by_cases last : i = n
      · subst last
        rw [Function.update_self]
        by_cases first : i < k
        · rw [Nat.mod_eq_of_lt first, copyUp_same]
          intro j inside
          rw [Ne, behind_inj fitsS fitsD (by omega) (by omega)]
          omega
        · -- the byte to copy is one that the loop has stored itself
          have stored : behind s i = behind d (i - k) := by
            rw [behind_inj fitsS fitsD (by omega) (by omega)]
            omega
          rw [stored, before (i - k) (by omega), Nat.mod_eq_sub_mod (by omega : i ≥ k)]
      · have differ : behind d i ≠ behind d n := by
          rw [Ne, behind_inj fitsD fitsD (by omega) (by omega)]
          omega
        rw [Function.update_of_ne differ]
        exact before i (by omega)

/-! ## From the last byte on -/

theorem copyDown_succ (n : Nat) (d s : BitVec 32) (memory : Image) :
    copyDown (n + 1) (behind d (n + 1)) (behind s (n + 1)) memory =
      copyDown n (behind d n) (behind s n)
        (Function.update memory (behind d n) (memory (behind s n))) := by
  rw [copyDown, behind_sub, behind_sub]

theorem copyDown_same (a : BitVec 32) (outside : ∀ i < n, a ≠ behind d i) :
    copyDown n (behind d n) (behind s n) memory a = memory a := by
  induction n generalizing memory with
  | zero => rfl
  | succ n ih =>
      rw [copyDown_succ, ih fun i inside => outside i (by omega),
        Function.update_of_ne (outside n (by omega))]

/-- A target that starts later than the source receives the source. -/
theorem copyDown_ahead (fitsD : Fits d n) (fitsS : Fits s n) (ahead : s.toNat < d.toNat) :
    ∀ i < n, copyDown n (behind d n) (behind s n) memory (behind d i) = memory (behind s i) := by
  induction n generalizing memory with
  | zero => intro i inside; omega
  | succ n ih =>
      intro i inside
      rw [copyDown_succ]
      by_cases last : i = n
      · subst last
        rw [copyDown_same, Function.update_self]
        intro j before
        rw [Ne, behind_inj fitsD fitsD (by omega) (by omega)]
        omega
      · have differ : behind s i ≠ behind d n := by
          rw [Ne, behind_inj fitsS fitsD (by omega) (by omega)]
          omega
        rw [ih (fitsD.mono (by omega)) (fitsS.mono (by omega)) i (by omega),
          Function.update_of_ne differ]

/-! ## The two functions -/

/-- The bytes of a range repeat themselves with a period. -/
def Repeats (memory : Image) (src : BitVec 32) (n k : Nat) : Prop :=
  ∀ i, i + k < n → memory (behind src (i + k)) = memory (behind src i)

/-- Bytes that repeat themselves are those of the first period. -/
theorem repeats_iff (positive : 0 < k) :
    Repeats memory s n k ↔ ∀ i < n, memory (behind s (i % k)) = memory (behind s i) := by
  constructor
  · intro repeats i inside
    induction i using Nat.strong_induction_on with
    | _ i ih =>
        by_cases first : i < k
        · rw [Nat.mod_eq_of_lt first]
        · have earlier := ih (i - k) (by omega) (by omega)
          have period := repeats (i - k) (by omega)
          rw [Nat.sub_add_cancel (by omega)] at period
          rw [Nat.mod_eq_sub_mod (by omega : i ≥ k), earlier, period]
  · intro same i inside
    rw [← same (i + k) inside, ← same i (by omega), Nat.add_mod_right]

/-- The kernel's function moves every range that does not wrap around. -/
theorem kernelMemmove_moved {dst src n : BitVec 32} (fitsD : Fits dst n.toNat)
    (fitsS : Fits src n.toNat) :
    Moved memory (kernelMemmove dst src n memory).2 dst src n.toNat := by
  have length : BitVec.ofNat 32 n.toNat = n := by simp
  by_cases down : src < dst ∧ src + n > dst
  · have ahead : src.toNat < dst.toNat := down.1
    have ran : (kernelMemmove dst src n memory).2 =
        copyDown n.toNat (behind dst n.toNat) (behind src n.toNat) memory := by
      rw [kernelMemmove, if_pos down, behind, behind, length]
    rw [ran]
    exact ⟨copyDown_ahead fitsD fitsS ahead, copyDown_same⟩
  · have ran : (kernelMemmove dst src n memory).2 = copyUp n.toNat dst src memory := by
      rw [kernelMemmove, if_neg down]
    rw [ran]
    refine ⟨fun i inside => ?_, copyUp_same⟩
    by_cases back : dst.toNat ≤ src.toNat
    · exact copyUp_back fitsD fitsS back i inside
    · -- the target starts behind the source, or the kernel would copy downwards
      have start : src.toNat + (dst.toNat - src.toNat) = dst.toNat := by omega
      have apart : i < dst.toNat - src.toNat := by
        have room : src.toNat + n.toNat < 2 ^ 32 := by
          unfold Fits at fitsD
          omega
        have sum : (src + n).toNat = src.toNat + n.toNat := by
          rw [BitVec.toNat_add, Nat.mod_eq_of_lt room]
        have least : ¬(src + n).toNat > dst.toNat := fun less => down ⟨by
          rw [BitVec.lt_def]
          omega, less⟩
        omega
      rw [copyUp_ahead fitsD fitsS (by omega) start i inside,
        Nat.mod_eq_of_lt apart]

/-- What the function of the user library relies on: a length that is not negative, and
a target that does not start inside the source, unless the source repeats itself.  With
a negative length it copies nothing. -/
def UserMoves (memory : Image) (dst src n : BitVec 32) : Prop :=
  if n.toNat < 2 ^ 31 then
    dst.toNat ≤ src.toNat ∨ src.toNat + n.toNat ≤ dst.toNat ∨
      Repeats memory src n.toNat (dst.toNat - src.toNat)
  else ∀ i < n.toNat, memory (behind src i) = memory (behind dst i)

theorem userMemmove_moved_iff {dst src n : BitVec 32} (fitsD : Fits dst n.toNat)
    (fitsS : Fits src n.toNat) :
    Moved memory (userMemmove dst src n memory).2 dst src n.toNat ↔
      UserMoves memory dst src n := by
  unfold UserMoves
  by_cases small : n.toNat < 2 ^ 31
  · have turns : n.toInt.toNat = n.toNat := by
      rw [BitVec.toInt_eq_toNat_of_lt (by omega)]
      rfl
    have ran : (userMemmove dst src n memory).2 = copyUp n.toNat dst src memory := by
      rw [userMemmove, turns]
    rw [if_pos small, ran]
    by_cases back : dst.toNat ≤ src.toNat
    · exact iff_of_true ⟨copyUp_back fitsD fitsS back, copyUp_same⟩ (.inl back)
    · have positive : 0 < dst.toNat - src.toNat := by omega
      have filled : ∀ i < n.toNat, copyUp n.toNat dst src memory (behind dst i) =
          memory (behind src (i % (dst.toNat - src.toNat))) :=
        copyUp_ahead fitsD fitsS positive (by omega)
      have exact' : Moved memory (copyUp n.toNat dst src memory) dst src n.toNat ↔
          Repeats memory src n.toNat (dst.toNat - src.toNat) := by
        rw [repeats_iff positive]
        constructor
        · intro moved i inside
          rw [← filled i inside, moved.copied i inside]
        · intro same
          exact ⟨fun i inside => (filled i inside).trans (same i inside), copyUp_same⟩
      rw [exact']
      constructor
      · intro repeats
        exact .inr (.inr repeats)
      · rintro (early | late | repeats)
        · omega
        · intro i inside
          omega
        · exact repeats
  · have bound := n.isLt
    have turns : n.toInt.toNat = 0 := by
      rw [BitVec.toInt_eq_toNat_cond, if_neg (by omega)]
      omega
    have ran : (userMemmove dst src n memory).2 = memory := by
      rw [userMemmove, turns]
      rfl
    rw [if_neg small, ran]
    constructor
    · intro moved i inside
      exact (moved.copied i inside).symm
    · intro same
      exact ⟨fun i inside => (same i inside).symm, fun _ _ => rfl⟩

/-- The kernel's function is right on every pair of ranges that do not wrap around; the
one of the user library is right, and agrees with it, under its condition only. -/
theorem memmove_moved_iff (memory : Image) {dst src n : BitVec 32} (fitsD : Fits dst n.toNat)
    (fitsS : Fits src n.toNat) :
    Moved memory (kernelMemmove dst src n memory).2 dst src n.toNat ∧
      (Moved memory (userMemmove dst src n memory).2 dst src n.toNat ↔
        UserMoves memory dst src n) ∧
      (kernelMemmove dst src n memory = userMemmove dst src n memory ↔
        UserMoves memory dst src n) := by
  have kernel : Moved memory (kernelMemmove dst src n memory).2 dst src n.toNat :=
    kernelMemmove_moved fitsD fitsS
  have user : Moved memory (userMemmove dst src n memory).2 dst src n.toNat ↔
      UserMoves memory dst src n := userMemmove_moved_iff fitsD fitsS
  have first : (kernelMemmove dst src n memory).1 = dst := by
    unfold kernelMemmove
    split <;> rfl
  refine ⟨kernel, user, ?_⟩
  rw [← user]
  constructor
  · intro agree
    rw [← agree]
    exact kernel
  · intro moved
    exact Prod.ext first (kernel.unique moved)

/-- Ten bytes that are moved by one. -/
theorem scroll_moved :
    (userMemmove 0 1 10 fun address => UInt8.ofNat address.toNat).2 (behind 0 3) = 4 := by
  have fits := memmove_moved_iff (fun address => UInt8.ofNat address.toNat)
    (by decide : Fits 0 (10 : BitVec 32).toNat) (by decide : Fits 1 (10 : BitVec 32).toNat)
  exact (fits.2.1.2 (by simp [UserMoves])).copied 3 (by decide)

/-- Two bytes moved by one: the user library copies the first byte twice. -/
theorem shifted_differs :
    let memory : Image := fun address => UInt8.ofNat address.toNat
    (kernelMemmove 1 0 2 memory).2 2 = 1 ∧ (userMemmove 1 0 2 memory).2 2 = 0 ∧
      ¬Moved memory (userMemmove 1 0 2 memory).2 1 0 2 := by
  intro memory
  have wrong : (userMemmove 1 0 2 memory).2 2 = 0 := by decide
  refine ⟨by decide, wrong, fun moved => ?_⟩
  have right := moved.copied 1 (by decide)
  change (userMemmove 1 0 2 memory).2 2 = 1 at right
  rw [wrong] at right
  cases right

end Xv6.Memory
